import StoragePlan.Proofs.Trees

/-!
The readers yield sound trees. One lemma for each reader, in the order of the grammar; a reader that
takes the reader of nested parts as an argument is sound if that one is.
-/

namespace StoragePlan

open Reader

/-- What is read, if anything, is sound. -/
def Maybe {α : Type} (P : α → Prop) (o : Option α) (_ : List Token) : Prop := ∀ a ∈ o, P a

theorem maybe_none {α : Type} {P : α → Prop} {read : List Token} : Maybe P none read := by
  simp [Maybe]

theorem maybe_some {α : Type} {P : α → Prop} {a : α} {read : List Token} :
    Maybe P (some a) read ↔ P a := by
  simp [Maybe]

/-! ### Expressions -/

namespace Expr

variable {sub : Reader (Option Expr)}

theorem reads_required (hs : Reads sub (Maybe Expr.Sound)) (after : Token) :
    Reads (required sub after) fun e _ => e.Sound := by
  refine hs.bind fun o read h => ?_
  cases o with
  | none => exact .get fun c => .fail _ _
  | some e => exact .pure (maybe_some.mp h)

theorem reads_arguments (hs : Reads sub (Maybe Expr.Sound)) (n : Nat) :
    Reads (arguments sub n) fun es _ => Expr.SoundAll es := by
  induction n with
  | zero => exact .pure trivial
  | succ n ih =>
    refine hs.bind fun o read h => ?_
    cases o with
    | none => exact .pure trivial
    | some e =>
      have he := maybe_some.mp h
      refine (reads_accept? _).bind fun o read h => ?_
      cases o with
      | none => exact .pure ⟨he, trivial⟩
      | some t => exact ih.bind fun es read h => .pure ⟨he, h⟩

theorem reads_callOf (hs : Reads sub (Maybe Expr.Sound)) :
    Reads (callOf sub) (Maybe Expr.Sound) := by
  refine reads_acceptName?.bind fun o read h => ?_
  cases o with
  | none => exact .pure maybe_none
  | some callee =>
    refine (reads_require _).bind fun _ _ _ => .get fun c => ?_
    refine (reads_arguments hs _).bind fun args _ hargs => (reads_require _).bind fun _ _ _ => ?_
    exact reads_newId.bind fun id _ _ => .pure (maybe_some.mpr ⟨h.2.2, hargs⟩)

theorem literal_of_is {t : Token} (h : ∃ l ∈ [Lexeme.integer 0, .text ""], t.is l = true) :
    t.Literal := by
  unfold Token.Literal
  unfold Token.is at h
  cases hl : t.lexeme <;> simp_all [Lexeme.sameKind]

theorem reads_primary (hs : Reads sub (Maybe Expr.Sound)) :
    Reads (primary sub) (Maybe Expr.Sound) := by
  refine (reads_accept? _).bind fun o read h => ?_
  cases o with
  | some paren =>
    refine (reads_required hs paren).bind fun e _ he => (reads_require _).bind fun _ _ _ => ?_
    exact .pure (maybe_some.mpr he)
  | none =>
    refine .get fun c => ?_
    split
    · exact reads_callOf hs
    · refine (reads_acceptAny? _).bind fun o read h => ?_
      cases o with
      | some t =>
        exact reads_newId.bind fun id _ _ => .pure (maybe_some.mpr (literal_of_is h.2.2))
      | none =>
        refine reads_acceptName?.bind fun o read h => ?_
        cases o with
        | some t => exact reads_newId.bind fun id _ _ => .pure (maybe_some.mpr h.2.2)
        | none => exact .pure maybe_none

theorem reads_suffixes (hs : Reads sub (Maybe Expr.Sound)) (n : Nat) {e : Expr} (he : e.Sound) :
    Reads (suffixes sub n e) fun e _ => e.Sound := by
  induction n generalizing e with
  | zero => exact .pure he
  | succ n ih =>
    refine (reads_accept? _).bind fun o read h => ?_
    cases o with
    | some op =>
      refine reads_acceptName?.bind fun o read h => ?_
      cases o with
      | some field =>
        refine reads_newId.bind fun id _ _ => reads_newId.bind fun id' _ _ => ih ?_
        exact ⟨he, h.2.2, fun _ => ⟨id, field, rfl⟩⟩
      | none => exact .fail _ _
    | none =>
      refine (reads_accept? _).bind fun o read h => ?_
      cases o with
      | some bracket =>
        refine (reads_required hs bracket).bind fun i _ hi => (reads_require _).bind fun _ _ _ => ?_
        exact reads_newId.bind fun id _ _ => ih ⟨he, hi⟩
      | none => exact .pure he

theorem reads_suffixed (hs : Reads sub (Maybe Expr.Sound)) :
    Reads (suffixed sub) (Maybe Expr.Sound) := by
  refine (reads_primary hs).bind fun o read h => ?_
  cases o with
  | none => exact .pure maybe_none
  | some e =>
    refine .get fun c => (reads_suffixes hs _ (maybe_some.mp h)).bind fun e' _ he => ?_
    exact .pure (maybe_some.mpr he)

theorem reads_applyUnary (op : Token) {operand : Expr} (h : operand.Sound) :
    Reads (applyUnary op operand) fun e _ => e.Sound := by
  unfold applyUnary
  split
  · exact .pure (.inl ⟨_, rfl⟩)
  · exact reads_newId.bind fun id _ _ => .pure h

theorem reads_unaryOf (hs : Reads sub (Maybe Expr.Sound)) (n : Nat) :
    Reads (unaryOf sub n) (Maybe Expr.Sound) := by
  induction n with
  | zero => exact reads_suffixed hs
  | succ n ih =>
    refine (reads_acceptAny? _).bind fun o read h => ?_
    cases o with
    | none => exact reads_suffixed hs
    | some op =>
      refine ih.bind fun o read h => ?_
      cases o with
      | none => exact .fail _ _
      | some operand =>
        refine (reads_applyUnary op (maybe_some.mp h)).bind fun e _ he => ?_
        exact .pure (maybe_some.mpr he)

theorem reads_operandOf (hs : Reads sub (Maybe Expr.Sound)) :
    Reads (operandOf sub) (Maybe Expr.Sound) := .get fun _ => reads_unaryOf hs _

/-- A binary operator is no access to a field. -/
theorem isAccess_of_bindsFrom {least : Nat} {op : Token} (h : bindsFrom least op = true) :
    isAccess op = false := by
  unfold isAccess
  rw [beq_eq_false_iff_ne]
  intro hd
  simp [bindsFrom, hd, Lexeme.level?, Operator.level?] at h

theorem reads_climb {operand : Reader (Option Expr)} (ho : Reads operand (Maybe Expr.Sound))
    (n least : Nat) {left : Expr} (hl : left.Sound) :
    Reads (climb operand n least left) fun e _ => e.Sound := by
  induction n generalizing least left with
  | zero => exact .pure hl
  | succ n ih =>
    refine (reads_nextIf? _).bind fun o read h => ?_
    cases o with
    | none => exact .pure hl
    | some op =>
      have hop := isAccess_of_bindsFrom h.2.2
      refine ho.bind fun o read h => ?_
      cases o with
      | none => exact .fail _ _
      | some first =>
        refine (ih _ (maybe_some.mp h)).bind fun right _ hr => reads_newId.bind fun id _ _ => ?_
        exact ih _ ⟨hl, hr, fun ha => by simp [hop] at ha⟩

theorem reads_binaryOf (hs : Reads sub (Maybe Expr.Sound)) (least : Nat) :
    Reads (binaryOf sub least) (Maybe Expr.Sound) := by
  refine (reads_operandOf hs).bind fun o read h => ?_
  cases o with
  | none => exact .pure maybe_none
  | some first =>
    refine .get fun c => ?_
    refine (reads_climb (reads_operandOf hs) _ _ (maybe_some.mp h)).bind fun e _ he => ?_
    exact .pure (maybe_some.mpr he)

theorem reads_nested (depth : Nat) : Reads (nested depth) (Maybe Expr.Sound) := by
  induction depth with
  | zero => exact .pure maybe_none
  | succ depth ih => exact reads_binaryOf ih 1

theorem reads_read? : Reads read? (Maybe Expr.Sound) := .get fun _ => reads_nested _

theorem reads_readAfter (after : Token) : Reads (readAfter after) fun e _ => e.Sound :=
  reads_required reads_read? after

end Expr

/-! ### Declarations -/

namespace Annotation

theorem reads_dimensions (n : Nat) :
    Reads (dimensions n) fun ds _ => ∀ d ∈ ds, d.1 ≤ Token.maxInteger := by
  induction n with
  | zero => exact .pure (by simp)
  | succ n ih =>
    refine (reads_accept? _).bind fun o read h => ?_
    cases o with
    | none => exact .pure (by simp)
    | some bracket =>
      refine (reads_accept? _).bind fun o read h => ?_
      split
      · next d position =>
        refine (reads_require _).bind fun _ _ _ => ih.bind fun ds _ hds => .pure ?_
        exact List.forall_mem_cons.mpr ⟨h.2.1.2, hds⟩
      · exact .fail _ _

theorem reads_read? : Reads read? (Maybe Annotation.Sound) := by
  refine (reads_acceptAny? _).bind fun o read h => ?_
  cases o with
  | none => exact .pure maybe_none
  | some name =>
    refine .get fun c => (reads_dimensions _).bind fun ds _ hds => .pure (maybe_some.mpr ?_)
    obtain ⟨_, hs, hk⟩ := h
    refine ⟨?_, hds⟩
    simp only [List.mem_cons, List.not_mem_nil, or_false, exists_eq_or_imp, exists_eq_left] at hk
    rcases hk with hk | hk
    · refine .inl ?_
      unfold Token.is at hk
      cases hl : name.lexeme <;> simp_all [Lexeme.sameKind]
    · exact .inr (names_of_is hs hk)

theorem reads_readAfter (after : Token) : Reads (readAfter after) fun a _ => a.Sound := by
  refine reads_read?.bind fun o read h => ?_
  cases o with
  | none => exact .get fun c => .fail _ _
  | some a => exact .pure (maybe_some.mp h)

theorem reads_readAfterColon : Reads readAfterColon fun a _ => a.Sound :=
  (reads_require _).bind fun colon _ _ => reads_readAfter colon

end Annotation

/-- What is read, if anything, is sound, and its names are among the tokens taken, in order. -/
def Declares {α : Type} (P : α → Prop) (names : α → List Token) (o : Option α)
    (read : List Token) : Prop := ∀ a ∈ o, P a ∧ (names a).Sublist read

theorem declares_none {α : Type} {P : α → Prop} {names : α → List Token} {read : List Token} :
    Declares P names none read := by
  simp [Declares]

theorem declares_some {α : Type} {P : α → Prop} {names : α → List Token} {a : α}
    {read : List Token} : Declares P names (some a) read ↔ P a ∧ (names a).Sublist read := by
  simp [Declares]

theorem reads_nameAfter (after : Token) :
    Reads (nameAfter after) fun t read => read = [t] ∧ t.Names := by
  refine reads_acceptName?.bind fun o read h => ?_
  cases o with
  | none => exact .get fun c => .fail _ _
  | some name =>
    obtain ⟨rfl, _, hn⟩ := h
    exact .pure ⟨rfl, hn⟩

namespace Field

theorem reads_readMany (n : Nat) :
    Reads (readMany n) fun fs read => (∀ f ∈ fs, f.Sound) ∧ (fs.map (·.name)).Sublist read := by
  induction n with
  | zero => exact .pure (by simp)
  | succ n ih =>
    refine reads_acceptName?.bind fun o read h => ?_
    cases o with
    | none => exact .pure (by simp)
    | some name =>
      obtain ⟨rfl, _, hn⟩ := h
      refine Annotation.reads_readAfterColon.bind fun a _ ha => ?_
      refine (reads_accept? _).bind fun o _ _ => ?_
      cases o with
      | none => exact .pure ⟨by simpa using ⟨hn, ha⟩, by simp⟩
      | some comma =>
        refine ih.bind fun fs _ hfs => .pure ⟨List.forall_mem_cons.mpr ⟨⟨hn, ha⟩, hfs.1⟩, ?_⟩
        simpa using hfs.2.trans (by simp)

theorem reads_readBetween (opening closing : Mark) :
    Reads (readBetween opening closing) fun fs read =>
      (∀ f ∈ fs, f.Sound) ∧ (fs.map (·.name)).Sublist read := by
  refine (reads_require _).bind fun _ _ _ => .get fun c => (reads_readMany _).bind fun fs _ h => ?_
  exact (reads_require _).bind fun _ _ _ => .pure ⟨h.1, h.2.trans (by simp)⟩

end Field

theorem TypeDef.reads_read? (exported : Bool) :
    Reads (TypeDef.read? exported) (Declares TypeDef.Sound fun d => [d.name]) := by
  refine (reads_accept? _).bind fun o read h => ?_
  cases o with
  | none => exact .pure declares_none
  | some token =>
    refine (reads_nameAfter token).bind fun name _ hn => ?_
    refine (Field.reads_readBetween _ _).bind fun fs _ hfs => .pure (declares_some.mpr ⟨?_, ?_⟩)
    · exact ⟨hn.2, hfs.1⟩
    · simp [hn.1]

theorem VariableDecl.reads_read? (exported : Bool) :
    Reads (VariableDecl.read? exported) (Declares VariableDecl.Sound fun d => [d.name]) := by
  refine (reads_accept? _).bind fun o read h => ?_
  cases o with
  | none => exact .pure declares_none
  | some token =>
    refine (reads_nameAfter token).bind fun name _ hn => ?_
    refine Annotation.reads_readAfterColon.bind fun a _ ha => ?_
    refine (reads_accept? _).bind fun o _ _ => ?_
    cases o with
    | some assign =>
      refine ((Expr.reads_readAfter assign).map (Q := Maybe Expr.Sound)
        fun e _ he => maybe_some.mpr he).bind fun value _ hv => (reads_require _).bind fun _ _ _ => ?_
      exact .pure (declares_some.mpr ⟨⟨hn.2, ha, hv⟩, by simp [hn.1]⟩)
    | none =>
      refine (Reads.pure (P := Maybe Expr.Sound) maybe_none).bind fun value _ hv => ?_
      refine (reads_require _).bind fun _ _ _ => .pure (declares_some.mpr ⟨⟨hn.2, ha, hv⟩, ?_⟩)
      simp [hn.1]

theorem ConstantDecl.reads_read? (exported : Bool) :
    Reads (ConstantDecl.read? exported) (Declares ConstantDecl.Sound fun d => [d.name]) := by
  refine (reads_accept? _).bind fun o read h => ?_
  cases o with
  | none => exact .pure declares_none
  | some token =>
    refine (reads_nameAfter token).bind fun name _ hn => ?_
    refine Annotation.reads_readAfterColon.bind fun a _ ha => ?_
    refine (reads_require _).bind fun assign _ _ => ?_
    refine (Expr.reads_readAfter assign).bind fun value _ hv => (reads_require _).bind fun _ _ _ => ?_
    exact .pure (declares_some.mpr ⟨⟨hn.2, ha, hv⟩, by simp [hn.1]⟩)

/-! ### Statements -/

section Statements

variable {sub : Reader (Option Stmt)}

theorem Block.reads_statements (hs : Reads sub (Declares Stmt.Sound Stmt.names)) (n : Nat) :
    Reads (Block.statements sub n) fun ss read =>
      Stmt.SoundAll ss ∧ (Stmt.namesAll ss).Sublist read := by
  induction n with
  | zero => exact .pure ⟨trivial, List.nil_sublist _⟩
  | succ n ih =>
    refine hs.bind fun o read h => ?_
    cases o with
    | none => exact .pure ⟨trivial, List.nil_sublist _⟩
    | some st =>
      obtain ⟨hst, hnames⟩ := declares_some.mp h
      exact ih.bind fun ss _ hss => .pure ⟨⟨hst, hss.1⟩, hnames.append (by simpa using hss.2)⟩

theorem Block.reads_readWith? (hs : Reads sub (Declares Stmt.Sound Stmt.names)) :
    Reads (Block.readWith? sub) (Declares Block.Sound Block.names) := by
  refine (reads_accept? _).bind fun o read h => ?_
  cases o with
  | none => exact .pure declares_none
  | some opening =>
    refine .get fun c => (Block.reads_statements hs _).bind fun ss _ hss => ?_
    refine (reads_require _).bind fun closing _ _ => .pure (declares_some.mpr ⟨hss.1, ?_⟩)
    exact hss.2.trans (by simp)

theorem Block.reads_requireWith (hs : Reads sub (Declares Stmt.Sound Stmt.names)) :
    Reads (Block.requireWith sub) fun b read => b.Sound ∧ b.names.Sublist read := by
  refine (Block.reads_readWith? hs).bind fun o read h => ?_
  cases o with
  | none => exact .get fun c => .throw _
  | some b => exact .pure (by simpa using declares_some.mp h)

namespace Stmt

/-- The names of two blocks, one after the other in the text. -/
theorem names_sublist {a b before first between second : List Token} (ha : a.Sublist first)
    (hb : b.Sublist second) :
    (a ++ b).Sublist (before ++ (first ++ (between ++ second))) :=
  List.sublist_append_of_sublist_right (ha.append (List.sublist_append_of_sublist_right hb))

theorem reads_branchWith? (hs : Reads sub (Declares Stmt.Sound Stmt.names)) (n : Nat) :
    Reads (branchWith? sub n)
      (Declares (fun b => b.toStmt.Sound) fun b => b.toStmt.names) := by
  induction n with
  | zero => exact .pure declares_none
  | succ n ih =>
    refine (reads_accept? _).bind fun o read h => ?_
    cases o with
    | none => exact .pure declares_none
    | some token =>
      refine (Expr.reads_readAfter token).bind fun c _ hc => ?_
      refine (Block.reads_requireWith hs).bind fun b _ hb => (reads_accept? _).bind fun o _ _ => ?_
      cases o with
      | none =>
        refine .pure (declares_some.mpr ⟨⟨hc, hb.1⟩, ?_⟩)
        rw [← List.append_assoc]
        exact List.sublist_append_of_sublist_right (List.sublist_append_of_sublist_left hb.2)
      | some elseToken =>
        refine ih.bind fun o _ h => ?_
        cases o with
        | some inner =>
          obtain ⟨hi, hnames⟩ := declares_some.mp h
          refine .pure (declares_some.mpr ⟨⟨hc, hb.1, hi, trivial⟩, ?_⟩)
          rw [← List.append_assoc, List.append_nil]
          refine names_sublist hb.2 ?_
          simpa [Branch.toElse, Block.names, Stmt.namesAll] using hnames
        | none =>
          refine (Block.reads_requireWith hs).bind fun e _ he => .pure (declares_some.mpr ⟨?_, ?_⟩)
          · exact ⟨hc, hb.1, he.1⟩
          · rw [← List.append_assoc, List.append_nil]
            exact names_sublist hb.2 (List.sublist_append_of_sublist_right he.2)

theorem reads_loopWith? (hs : Reads sub (Declares Stmt.Sound Stmt.names)) :
    Reads (loopWith? sub) (Declares Stmt.Sound Stmt.names) := by
  refine (reads_accept? _).bind fun o read h => ?_
  cases o with
  | none => exact .pure declares_none
  | some token =>
    refine (Expr.reads_readAfter token).bind fun c _ hc => ?_
    refine (Block.reads_requireWith hs).bind fun b _ hb => .pure (declares_some.mpr ⟨⟨hc, hb.1⟩, ?_⟩)
    rw [List.append_nil, ← List.append_assoc]
    exact List.sublist_append_of_sublist_right hb.2

theorem reads_ret? : Reads ret? (Declares Stmt.Sound Stmt.names) := by
  refine (reads_accept? _).bind fun o read h => ?_
  cases o with
  | none => exact .pure declares_none
  | some token =>
    refine Expr.reads_read?.bind fun value _ hv => (reads_require _).bind fun _ _ _ => ?_
    exact .pure (declares_some.mpr ⟨hv, List.nil_sublist _⟩)

theorem reads_simple? : Reads simple? (Declares Stmt.Sound Stmt.names) := by
  refine Expr.reads_read?.bind fun o read h => ?_
  cases o with
  | none => exact .pure declares_none
  | some e =>
    have he := maybe_some.mp h
    refine (reads_accept? _).bind fun o _ _ => ?_
    cases o with
    | none =>
      refine (Reads.pure (P := fun st _ => st = .expr e) rfl).bind fun st _ hst => ?_
      refine (reads_require _).bind fun _ _ _ => .pure (declares_some.mpr ?_)
      rw [hst]
      exact ⟨he, List.nil_sublist _⟩
    | some op =>
      dsimp only
      split
      · next ha =>
        refine (Expr.reads_readAfter op).bind fun v _ hv => ?_
        refine (Reads.pure (P := fun st _ => st = .assign e op v) rfl).bind fun st _ hst => ?_
        refine (reads_require _).bind fun _ _ _ => .pure (declares_some.mpr ?_)
        rw [hst]
        exact ⟨⟨he, ha, hv⟩, List.nil_sublist _⟩
      · exact (Reads.fail (P := fun _ _ => False) _ _).bind fun _ _ h => h.elim

theorem reads_firstOf {α : Type} {P : α → Prop} {names : α → List Token}
    {rs : List (Reader (Option α))} (h : ∀ r ∈ rs, Reads r (Declares P names)) :
    Reads (firstOf rs) (Declares P names) := by
  induction rs with
  | nil => exact .pure declares_none
  | cons r rs ih =>
    rw [List.forall_mem_cons] at h
    refine h.1.bind fun o read ho => ?_
    cases o with
    | some a => exact .pure (by simpa using ho)
    | none =>
      refine (ih h.2).mono fun o more ho a ha => ⟨(ho a ha).1, ?_⟩
      exact List.sublist_append_of_sublist_right (ho a ha).2

/-- What is read as one of several kinds. -/
theorem reads_as {α β : Type} {P : α → Prop} {names : α → List Token} {Q : β → Prop}
    {names' : β → List Token} {r : Reader (Option α)} {g : α → β} (h : Reads r (Declares P names))
    (hq : ∀ a, P a → Q (g a)) (hn : ∀ a, names' (g a) = names a) :
    Reads ((·.map g) <$> r) (Declares Q names') :=
  h.map fun o read ho b hb => by
    obtain ⟨a, ha, rfl⟩ := Option.map_eq_some_iff.mp hb
    rw [hn]
    exact ⟨hq a (ho a ha).1, (ho a ha).2⟩

theorem reads_readWith? (hs : Reads sub (Declares Stmt.Sound Stmt.names)) :
    Reads (readWith? sub) (Declares Stmt.Sound Stmt.names) := by
  refine .get fun c => ?_
  split
  · exact .pure declares_none
  · refine reads_firstOf ?_
    simp only [List.forall_mem_cons]
    refine ⟨?_, ?_, ?_, ?_, reads_loopWith? hs, reads_ret?, ?_, reads_simple?, by simp⟩
    · exact reads_as (VariableDecl.reads_read? false) (fun _ h => h) fun _ => rfl
    · exact reads_as (ConstantDecl.reads_read? false) (fun _ h => h) fun _ => rfl
    · exact reads_as (TypeDef.reads_read? false) (fun _ h => h) fun _ => rfl
    · exact reads_as (reads_branchWith? hs _) (fun _ h => h) fun _ => rfl
    · exact reads_as (Block.reads_readWith? hs) (fun _ h => h) fun _ => rfl

theorem reads_nested (depth : Nat) : Reads (nested depth) (Declares Stmt.Sound Stmt.names) := by
  induction depth with
  | zero => exact .pure declares_none
  | succ depth ih => exact reads_readWith? ih

end Stmt

end Statements

theorem Block.reads_read : Reads Block.read fun b read => b.Sound ∧ b.names.Sublist read :=
  Block.reads_requireWith (.get fun _ => Stmt.reads_nested _)

/-! ### Files -/

theorem FunctionDef.reads_read? (exported : Bool) :
    Reads (FunctionDef.read? exported) (Declares FunctionDef.Sound fun d => d.name :: d.inner) := by
  refine (reads_accept? _).bind fun o read h => ?_
  cases o with
  | none => exact .pure declares_none
  | some token =>
    refine (reads_nameAfter token).bind fun name _ hn => ?_
    obtain ⟨rfl, hname⟩ := hn
    refine (Field.reads_readBetween _ _).bind fun params readParams hparams => ?_
    refine (reads_accept? _).bind fun o _ _ => ?_
    have hnames : ∀ (between readBody : List Token) (b : Block), b.names.Sublist readBody →
        (name :: (params.map (·.name) ++ b.names)).Sublist
          (read ++ ([name] ++ (readParams ++ (between ++ readBody)))) :=
      fun between readBody b hb => List.sublist_append_of_sublist_right
        ((List.Sublist.refl [name]).append
          (hparams.2.append (List.sublist_append_of_sublist_right hb)))
    cases o with
    | some arrow =>
      have harrow := Annotation.reads_readAfter arrow
      refine (harrow.map (Q := Maybe Annotation.Sound)
        fun a _ ha => maybe_some.mpr ha).bind fun returns _ hr => ?_
      refine Block.reads_read.bind fun body _ hb => .pure (declares_some.mpr ⟨?_, ?_⟩)
      · exact ⟨hname, hparams.1, hr, hb.1⟩
      · rw [List.append_nil]
        exact hnames _ _ body (List.sublist_append_of_sublist_right hb.2)
    | none =>
      refine (Reads.pure (P := Maybe Annotation.Sound) maybe_none).bind fun returns _ hr => ?_
      refine Block.reads_read.bind fun body _ hb => .pure (declares_some.mpr ⟨?_, ?_⟩)
      · exact ⟨hname, hparams.1, hr, hb.1⟩
      · rw [List.append_nil]
        exact hnames _ _ body (List.sublist_append_of_sublist_right hb.2)

namespace Item

theorem reads_declaration? (exported : Bool) :
    Reads (declaration? exported) (Declares Item.Sound Item.names) := by
  refine Stmt.reads_firstOf ?_
  simp only [List.forall_mem_cons]
  refine ⟨?_, ?_, ?_, ?_, by simp⟩
  · exact Stmt.reads_as (TypeDef.reads_read? exported) (fun _ h => h) fun _ => rfl
  · exact Stmt.reads_as (FunctionDef.reads_read? exported) (fun _ h => h) fun _ => rfl
  · exact Stmt.reads_as (VariableDecl.reads_read? exported) (fun _ h => h) fun _ => rfl
  · exact Stmt.reads_as (ConstantDecl.reads_read? exported) (fun _ h => h) fun _ => rfl

theorem reads_import? : Reads Import.read? fun _ _ => True := by
  refine (reads_accept? _).bind fun o read h => ?_
  cases o with
  | none => exact .pure trivial
  | some token =>
    refine (reads_accept? _).bind fun o _ _ => ?_
    split
    · exact (reads_require _).bind fun _ _ _ => .pure trivial
    · exact .fail _ _

theorem reads_read? : Reads Item.read? (Declares Item.Sound Item.names) := by
  have hlater : ∀ {before : List Token} {o : Option Item} {more : List Token},
      Declares Item.Sound Item.names o more → Declares Item.Sound Item.names o (before ++ more) :=
    fun h a ha => ⟨(h a ha).1, List.sublist_append_of_sublist_right (h a ha).2⟩
  refine reads_import?.bind fun o read h => ?_
  cases o with
  | some i => exact .pure (declares_some.mpr ⟨trivial, List.nil_sublist _⟩)
  | none =>
    refine (reads_accept? _).bind fun o _ _ => ?_
    cases o with
    | none => exact (reads_declaration? false).mono fun _ _ h => hlater (hlater h)
    | some token =>
      refine (reads_declaration? true).bind fun o _ h => ?_
      cases o with
      | some item => exact .pure (hlater (hlater (by simpa using h)))
      | none => exact .get fun c => .fail _ _

theorem reads_readAll (n : Nat) :
    Reads (readAll n) fun is read =>
      (∀ i ∈ is, i.Sound) ∧ (is.flatMap Item.names).Sublist read := by
  induction n with
  | zero => exact .pure (by simp)
  | succ n ih =>
    refine .get fun c => ?_
    split
    · exact .pure (by simp)
    · refine reads_read?.bind fun o read h => ?_
      cases o with
      | none => exact .get fun c => .fail _ _
      | some item =>
        obtain ⟨hi, hnames⟩ := declares_some.mp h
        refine ih.bind fun is _ his => .pure ⟨List.forall_mem_cons.mpr ⟨hi, his.1⟩, ?_⟩
        rw [List.flatMap_cons, List.append_nil]
        exact hnames.append his.2

end Item

/-- A file is read from sound tokens as sound items, whose names are tokens in the same order. -/
theorem SourceFile.parse_sound {file : String} {tokens : List Token} {source : SourceFile}
    (ht : ∀ t ∈ tokens, t.Sound) (h : SourceFile.parse file tokens = .ok source) :
    (∀ i ∈ source.items, i.Sound) ∧ (source.items.flatMap Item.names).Sublist tokens := by
  unfold SourceFile.parse at h
  split at h
  · next items c hr =>
    cases h
    obtain ⟨read, hread, hsound, hnames⟩ := (Item.reads_readAll _ (.ofTokens tokens) ht).ok hr
    have hread' : tokens = read ++ c.rest := hread
    refine ⟨hsound, ?_⟩
    rw [hread']
    exact List.sublist_append_of_sublist_left hnames
  · cases h

end StoragePlan
