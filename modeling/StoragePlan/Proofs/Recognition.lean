import StoragePlan.Proofs.Acceptance

/-!
Reading recognises the grammar: a list of tokens is read without an error exactly if the grammar
derives it. After the expressions come the declarations, whose first token tells them apart, then the
statements, by the depth of their braces, and the whole file.
-/

namespace StoragePlan

open Reader Grammar

variable {ts follow : List Token}

/-! ### Declarations -/

namespace Annotation

theorem accepts_dimensions {dims : List (Int × Position)} (h : Dimensions ts dims) {m : Nat}
    (hm : ts.length ≤ m) (hf : Lacks (.mark .leftBracket) follow) :
    Accepts (dimensions m) ts follow fun _ => True := by
  induction h generalizing m with
  | nil =>
    cases m with
    | zero => exact .pure trivial
    | succ m => exact .skip (declines_accept hf) (.pure trivial)
  | @cons l t r d ts dims hl ht hr _ ih =>
    obtain _ | m := m
    · simp at hm
    simp only [List.length_cons] at hm
    obtain ⟨lexeme, position⟩ := t
    obtain rfl := ht
    refine .accept (is_mark.mpr hl) (.accept rfl (.require (is_mark.mpr hr) ?_))
    exact (ih (by omega)).last fun _ _ => .pure trivial

theorem accepts_read? {a : Annotation} (h : TypeRef ts a) (hf : Lacks (.mark .leftBracket) follow) :
    Accepts read? ts follow fun o => o.isSome = true := by
  obtain ⟨hname, hdims⟩ := h
  refine .acceptAny ?_ (.get fun c hc => ?_)
  · simpa [is_primitive, is_name] using hname
  · exact (accepts_dimensions hdims (by simp [hc]) hf).last fun _ _ => .pure rfl

theorem accepts_readAfter {a : Annotation} (h : TypeRef ts a)
    (hf : Lacks (.mark .leftBracket) follow) (after : Token) :
    Accepts (readAfter after) ts follow fun _ => True := by
  refine (accepts_read? h hf).last fun o ho => ?_
  obtain ⟨a', rfl⟩ := Option.isSome_iff_exists.mp ho
  exact .pure trivial

theorem accepts_readAfterColon {a : Annotation} {colon : Token} (hcolon : colon.lexeme = .mark .colon)
    (h : TypeRef ts a) (hf : Lacks (.mark .leftBracket) follow) :
    Accepts readAfterColon (colon :: ts) follow fun _ => True :=
  .require (is_mark.mpr hcolon) (accepts_readAfter h hf colon)

end Annotation

open Annotation (accepts_readAfterColon accepts_readAfter)

theorem Accepts.name {β : Type} {f : Token → Reader β} {Q : β → Prop} {t after : Token}
    (ht : NameToken t) (hf : Accepts (f t) ts follow Q) :
    Accepts (nameAfter after >>= f) (t :: ts) follow Q := by
  have htake : Accepts (nameAfter after) [t] (ts ++ follow) (· = t) :=
    .accept (is_name.mpr ht) (.pure rfl)
  exact Accepts.bind htake fun a ha => ha ▸ hf

namespace Field

theorem accepts_readMany {fs : List Field} (h : Fields ts fs) {m : Nat} (hm : ts.length ≤ m)
    {r : Token} {k : Mark} (hr : r.lexeme = .mark k) (hcomma : k ≠ .comma)
    (hbracket : k ≠ .leftBracket) :
    Accepts (readMany m) ts (r :: follow) fun _ => True := by
  induction h generalizing m with
  | nil =>
    cases m with
    | zero => exact .pure trivial
    | succ m =>
      exact .skip (declines_accept (.of_lexeme hr rfl)) (.pure trivial)
  | @last ts f h =>
    obtain ⟨hname, hcolon, ha⟩ := h
    obtain _ | m := m
    · simp at hm
    refine .accept (is_name.mpr hname) ?_
    refine (accepts_readAfterColon hcolon ha (.of_lexeme hr ?_)).last fun a _ => ?_
    · simp [Lexeme.sameKind, hbracket]
    · refine .skip (declines_accept (.of_lexeme hr ?_)) (.pure trivial)
      simp [Lexeme.sameKind, hcomma]
  | @cons comma ts us f fs h hc _ ih =>
    obtain ⟨hname, hcolon, ha⟩ := h
    obtain _ | m := m
    · simp at hm
    simp only [List.length_cons, List.cons_append, List.length_append] at hm
    refine .accept (is_name.mpr hname) ?_
    refine Accepts.bind (accepts_readAfterColon hcolon ha (.of_lexeme hc rfl)) fun a _ => ?_
    exact .accept (is_mark.mpr hc) ((ih (by omega)).last fun _ _ => .pure trivial)

theorem accepts_readBetween {opening closing : Mark} {l r : Token} {fs : List Field}
    (hl : l.lexeme = .mark opening) (h : Fields ts fs) (hr : r.lexeme = .mark closing)
    (hcomma : closing ≠ .comma) (hbracket : closing ≠ .leftBracket) :
    Accepts (readBetween opening closing) (l :: ts ++ [r]) follow fun _ => True := by
  refine .require (is_mark.mpr hl) (.get fun c hc => ?_)
  refine Accepts.bind (accepts_readMany h (by simp [hc]) hr hcomma hbracket) fun fs' _ => ?_
  exact .require (is_mark.mpr hr) (.pure trivial)

end Field

theorem TypeDef.accepts_read? {exported : Bool} {d : TypeDef} (h : TypeDefinition exported ts d) :
    Accepts (TypeDef.read? exported) ts follow fun o => o.isSome = true := by
  obtain ⟨hkw, hname, hl, hfs, hr⟩ := h
  refine .accept (is_keyword.mpr hkw) (.name hname ?_)
  exact (Field.accepts_readBetween hl hfs hr (by simp) (by simp)).last fun _ _ => .pure rfl

/-- A variable is declared with the value that is read after the sign. -/
theorem VariableDecl.accepts_valued {exported : Bool} {kw assign semicolon : Token} {us : List Token}
    {f : Field} {P : Expr → Prop} (hkw : kw.lexeme = .keyword .varKw) (hf : Typed ts f)
    (hassign : assign.lexeme = .operator .assign)
    (h : Accepts (Expr.readAfter assign) us (semicolon :: follow) P)
    (hs : semicolon.lexeme = .mark .semicolon) :
    Accepts (VariableDecl.read? exported) (kw :: ts ++ assign :: us ++ [semicolon]) follow fun o =>
      ∃ d e, o = some d ∧ d.value = some e ∧ P e := by
  obtain ⟨hname, hcolon, ha⟩ := hf
  rw [List.append_assoc]
  refine .accept (is_keyword.mpr hkw) (.name hname ?_)
  refine Accepts.bind (accepts_readAfterColon hcolon ha (.of_lexeme hassign rfl)) fun a _ => ?_
  refine .accept (is_operator.mpr hassign) ?_
  have hvalue := h.map (g := some) (Q := fun o => ∃ e, o = some e ∧ P e) fun e he => ⟨e, rfl, he⟩
  refine Accepts.bind hvalue fun value hv => ?_
  obtain ⟨e, rfl, he⟩ := hv
  exact .require (is_mark.mpr hs) (.pure ⟨_, e, rfl, rfl, he⟩)

theorem VariableDecl.accepts_read? {exported : Bool} {d : VariableDecl}
    (h : VariableDeclaration exported ts d) :
    Accepts (VariableDecl.read? exported) ts follow fun o => o.isSome = true := by
  cases h with
  | plain hkw hf hs =>
    obtain ⟨hname, hcolon, ha⟩ := hf
    refine .accept (is_keyword.mpr hkw) (.name hname ?_)
    refine Accepts.bind (accepts_readAfterColon hcolon ha (.of_lexeme hs rfl)) fun a _ => ?_
    refine .skip (declines_accept (.of_lexeme hs rfl)) (.pureBind ?_)
    exact .require (is_mark.mpr hs) (.pure rfl)
  | @valued kw assign semicolon ts us f e hkw hf hassign he hs =>
    have hstops : Stops (semicolon :: follow) := .mark hs (by simp) (by simp)
    have hvalue := Expr.accepts_readAfter he hstops assign
    apply (accepts_valued hkw hf hassign hvalue hs).mono
    rintro o ⟨d, e', rfl, -, -⟩
    rfl

theorem ConstantDecl.accepts_read? {exported : Bool} {d : ConstantDecl}
    (h : ConstantDeclaration exported ts d) :
    Accepts (ConstantDecl.read? exported) ts follow fun o => o.isSome = true := by
  obtain ⟨hkw, ⟨hname, hcolon, ha⟩, hassign, he, hs⟩ := h
  rw [List.append_assoc]
  refine .accept (is_keyword.mpr hkw) (.name hname ?_)
  refine Accepts.bind (accepts_readAfterColon hcolon ha (.of_lexeme hassign rfl)) fun a _ => ?_
  refine .require (is_operator.mpr hassign) ?_
  refine Accepts.bind (Expr.accepts_readAfter he (.mark hs (by simp) (by simp)) _) fun value _ => ?_
  exact .require (is_mark.mpr hs) (.pure rfl)

/-! ### What starts a statement -/

/-- The keywords that start a statement. -/
def openingKeywords : List Keyword := [.varKw, .constKw, .typeKw, .ifKw, .whileKw, .returnKw]

/-- The token can start a statement. -/
def Opens (t : Token) : Prop :=
  OpensExpr t ∨ t.lexeme = .mark .leftBrace ∨ ∃ k ∈ openingKeywords, t.lexeme = .keyword k

theorem OpensExpr.sameKind {t : Token} (h : OpensExpr t) {l : Lexeme}
    (hl : (∃ k, l = .keyword k) ∨ l = .mark .leftBrace ∨ l = .mark .rightBrace) :
    t.is l = false := by
  unfold Token.is
  rcases h with h | (⟨_, h⟩ | ⟨_, h⟩) | ⟨_, h⟩ | h | h | h <;> rw [h] <;>
    rcases hl with ⟨k, rfl⟩ | rfl | rfl <;> rfl

theorem Opens.not_else {t : Token} (h : Opens t) : t.is (.keyword .elseKw) = false := by
  rcases h with h | h | ⟨k, hk, h⟩
  · exact h.sameKind (.inl ⟨_, rfl⟩)
  · simp [Token.is, h, Lexeme.sameKind]
  · have hother : ∀ k ∈ openingKeywords, (Lexeme.keyword k).sameKind (.keyword .elseKw) = false := by
      decide
    rw [Token.is, h]
    exact hother k hk

theorem Opens.not_rightBrace {t : Token} (h : Opens t) : t.is (.mark .rightBrace) = false := by
  rcases h with h | h | ⟨k, hk, h⟩
  · exact h.sameKind (.inr (.inr rfl))
  · simp [Token.is, h, Lexeme.sameKind]
  · simp [Token.is, h, Lexeme.sameKind]

theorem Grammar.VariableDeclaration.head {exported : Bool} {d : VariableDecl}
    (h : VariableDeclaration exported ts d) : ∃ t us, ts = t :: us ∧ t.lexeme = .keyword .varKw := by
  cases h with
  | plain hkw => exact ⟨_, _, rfl, hkw⟩
  | valued hkw => exact ⟨_, _, rfl, hkw⟩

theorem Grammar.ConstantDeclaration.head {exported : Bool} {d : ConstantDecl}
    (h : ConstantDeclaration exported ts d) :
    ∃ t us, ts = t :: us ∧ t.lexeme = .keyword .constKw := by
  obtain ⟨hkw, -⟩ := h
  exact ⟨_, _, rfl, hkw⟩

theorem Grammar.TypeDefinition.head {exported : Bool} {d : TypeDef}
    (h : TypeDefinition exported ts d) : ∃ t us, ts = t :: us ∧ t.lexeme = .keyword .typeKw := by
  obtain ⟨hkw, -⟩ := h
  exact ⟨_, _, rfl, hkw⟩

theorem Grammar.Braces.head {b : Block} (h : Braces ts b) :
    ∃ t us, ts = t :: us ∧ t.lexeme = .mark .leftBrace := by
  obtain ⟨hl, -, -⟩ := h
  exact ⟨_, _, rfl, hl⟩

theorem Grammar.Conditional.head {b : Stmt.Branch} (h : Conditional ts b) :
    ∃ t us, ts = t :: us ∧ t.lexeme = .keyword .ifKw := by
  cases h with
  | plain hkw => exact ⟨_, _, rfl, hkw⟩
  | orElse hkw => exact ⟨_, _, rfl, hkw⟩
  | orIf hkw => exact ⟨_, _, rfl, hkw⟩

theorem Grammar.Statement.head {st : Stmt} (h : Statement ts st) :
    ∃ t us, ts = t :: us ∧ Opens t := by
  have hkeyword : ∀ {k : Keyword}, k ∈ openingKeywords →
      (∃ t us, ts = t :: us ∧ t.lexeme = .keyword k) → ∃ t us, ts = t :: us ∧ Opens t := by
    rintro k hk ⟨t, us, hts, ht⟩
    exact ⟨t, us, hts, .inr (.inr ⟨k, hk, ht⟩)⟩
  cases h with
  | varDecl h => exact hkeyword (by decide) h.head
  | constDecl h => exact hkeyword (by decide) h.head
  | typeDef h => exact hkeyword (by decide) h.head
  | branch h => exact hkeyword (by decide) h.head
  | loop hkw => exact hkeyword (by decide) ⟨_, _, rfl, hkw⟩
  | ret hkw => exact hkeyword (by decide) ⟨_, _, rfl, hkw⟩
  | retValue hkw => exact hkeyword (by decide) ⟨_, _, rfl, hkw⟩
  | block h =>
    obtain ⟨t, us, rfl, ht⟩ := h.head
    exact ⟨t, us, rfl, .inr (.inl ht)⟩
  | expr h =>
    obtain ⟨t, us, rfl, ht⟩ := h.head
    exact ⟨t, _, rfl, .inl ht⟩
  | assign h =>
    obtain ⟨t, us, rfl, ht⟩ := h.head
    exact ⟨t, _, rfl, .inl ht⟩

/-! ### Statements -/

/-- The reader reads all statements of at most `n` tokens, and nothing before a closing brace. -/
structure ReadsStatements (sub : Reader (Option Stmt)) (n : Nat) : Prop where
  accepts : ∀ {ts follow : List Token} {st : Stmt}, Statement ts st → ts.length ≤ n →
    Lacks (.keyword .elseKw) follow → Accepts sub ts follow fun o => o.isSome = true
  declines : ∀ {r : Token} {ts : List Token}, r.lexeme = .mark .rightBrace → Declines sub (r :: ts)

section Statements

variable {sub : Reader (Option Stmt)} {n : Nat}

theorem Block.accepts_statements (hs : ReadsStatements sub n) {ss : List Stmt} (h : Statements ts ss)
    (hn : ts.length ≤ n) {m : Nat} (hm : ts.length ≤ m) {r : Token}
    (hr : r.lexeme = .mark .rightBrace) :
    Accepts (Block.statements sub m) ts (r :: follow) fun _ => True := by
  induction m generalizing ts ss with
  | zero =>
    obtain rfl := List.length_eq_zero_iff.mp (Nat.le_zero.mp hm)
    exact .pure trivial
  | succ m ih =>
    cases h with
    | nil => exact .skip (hs.declines hr) (.pure trivial)
    | @cons ts us st ss hst hss =>
      obtain ⟨t, ts, rfl, -⟩ := hst.head
      simp only [List.cons_append, List.length_cons, List.length_append] at hn hm
      have hnext : Lacks (.keyword .elseKw) (us ++ r :: follow) := by
        cases hss with
        | nil => exact .of_lexeme hr rfl
        | cons hst' =>
          obtain ⟨u, us, rfl, hu⟩ := hst'.head
          exact .cons hu.not_else
      refine Accepts.bind (hs.accepts hst ?_ hnext) fun o ho => ?_
      · simp only [List.length_cons]
        omega
      · obtain ⟨st', rfl⟩ := Option.isSome_iff_exists.mp ho
        exact (ih hss (by omega) (by omega)).last fun _ _ => .pure trivial

theorem Block.accepts_readWith? (hs : ReadsStatements sub n) {b : Block} (h : Braces ts b)
    (hn : ts.length ≤ n + 1) :
    Accepts (Block.readWith? sub) ts follow fun o => o.isSome = true := by
  obtain ⟨hl, hss, hr⟩ := h
  simp only [List.cons_append, List.length_cons, List.length_append] at hn
  refine .accept (is_mark.mpr hl) (.get fun c hc => ?_)
  refine Accepts.bind (Block.accepts_statements hs hss (by omega) (by simp [hc]) hr) fun ss' _ => ?_
  exact .require (is_mark.mpr hr) (.pure rfl)

theorem Block.accepts_requireWith (hs : ReadsStatements sub n) {b : Block} (h : Braces ts b)
    (hn : ts.length ≤ n + 1) : Accepts (Block.requireWith sub) ts follow fun _ => True := by
  refine (Block.accepts_readWith? hs h hn).last fun o ho => ?_
  obtain ⟨b', rfl⟩ := Option.isSome_iff_exists.mp ho
  exact .pure trivial

/-- A condition, the block it guards, and what comes after them. -/
theorem Accepts.guarded (hs : ReadsStatements sub n) {us vs : List Token} {e : Expr} {b : Block}
    {β : Type} {f : Expr → Block → Reader β} {Q : β → Prop} {kw : Token} (he : Expression ts e)
    (hb : Braces us b) (hn : us.length ≤ n + 1) (hf : ∀ e' b', Accepts (f e' b') vs follow Q) :
    Accepts (Expr.readAfter kw >>= fun e' => Block.requireWith sub >>= fun b' => f e' b')
      (ts ++ (us ++ vs)) follow Q := by
  have hstops : Stops (us ++ vs ++ follow) := by
    obtain ⟨t, us, rfl, ht⟩ := hb.head
    exact .mark ht (by simp) (by simp)
  refine Accepts.bind (Expr.accepts_readAfter he hstops kw) fun e' _ => ?_
  exact Accepts.bind (Block.accepts_requireWith hs hb hn) fun b' _ => hf e' b'

namespace Stmt

theorem accepts_branchWith? (hs : ReadsStatements sub n) {b : Branch} (h : Conditional ts b)
    (hn : ts.length ≤ n + 1) {m : Nat} (hm : ts.length ≤ m)
    (hf : Lacks (.keyword .elseKw) follow) :
    Accepts (branchWith? sub m) ts follow fun o => o.isSome = true := by
  induction m generalizing ts b with
  | zero =>
    obtain ⟨t, us, rfl, -⟩ := h.head
    simp at hm
  | succ m ih =>
    cases h with
    | @plain kw ts us condition b hkw hc hb =>
      simp only [List.cons_append, List.length_cons, List.length_append] at hn hm
      rw [← List.append_nil (kw :: ts ++ us), List.append_assoc]
      refine .accept (is_keyword.mpr hkw) (.guarded hs hc hb (by omega) fun c b' => ?_)
      exact .skip (declines_accept hf) (.pure rfl)
    | @orElse kw other ts us vs condition b b' hkw hc hb hother hb' =>
      simp only [List.cons_append, List.length_cons, List.length_append] at hn hm
      rw [List.append_assoc]
      refine .accept (is_keyword.mpr hkw) (.guarded hs hc hb (by omega) fun c b' => ?_)
      refine .accept (is_keyword.mpr hother) (.skip ?_ ?_)
      · obtain ⟨t, us', rfl, ht⟩ := hb'.head
        cases m with
        | zero => exact .pure
        | succ m => exact .bind (declines_accept (.of_lexeme ht rfl)) .pure
      · exact (Block.accepts_requireWith hs hb' (by omega)).last fun _ _ => .pure rfl
    | @orIf kw other ts us vs condition b inner hkw hc hb hother hinner =>
      simp only [List.cons_append, List.length_cons, List.length_append] at hn hm
      rw [List.append_assoc]
      refine .accept (is_keyword.mpr hkw) (.guarded hs hc hb (by omega) fun c b' => ?_)
      refine .accept (is_keyword.mpr hother) ?_
      refine (ih hinner (by omega) (by omega)).last fun o ho => ?_
      obtain ⟨inner', rfl⟩ := Option.isSome_iff_exists.mp ho
      exact .pure rfl

theorem accepts_loopWith? (hs : ReadsStatements sub n) {kw : Token} {us : List Token} {e : Expr}
    {b : Block} (hkw : kw.lexeme = .keyword .whileKw) (he : Expression ts e) (hb : Braces us b)
    (hn : us.length ≤ n + 1) :
    Accepts (loopWith? sub) (kw :: ts ++ us) follow fun o => o.isSome = true := by
  rw [← List.append_nil (kw :: ts ++ us), List.append_assoc]
  exact .accept (is_keyword.mpr hkw) (.guarded hs he hb hn fun _ _ => .pure rfl)

/-- A statement that ends with a semicolon after an expression or after none. -/
theorem accepts_ret? {kw semicolon : Token} (hkw : kw.lexeme = .keyword .returnKw)
    (h : ts = [] ∨ ∃ e, Expression ts e) (hs : semicolon.lexeme = .mark .semicolon) :
    Accepts ret? (kw :: ts ++ [semicolon]) follow fun o => o.isSome = true := by
  have hend : ∀ value, Accepts (require (.mark .semicolon) >>= fun _ => pure (some (.ret kw value)))
      [semicolon] follow fun o : Option Stmt => o.isSome = true := fun value =>
    .require (is_mark.mpr hs) (.pure rfl)
  refine .accept (is_keyword.mpr hkw) ?_
  rcases h with rfl | ⟨e, he⟩
  · refine .skip (Expr.declines_read? ?_) (hend none)
    simp [OpensExpr, LiteralToken, NameToken, UnaryToken, hs]
  · exact Accepts.bind (Expr.accepts_read? he (.mark hs (by simp) (by simp))) fun value _ => hend value

theorem accepts_simple? {semicolon : Token} {e : Expr} (he : Expression ts e)
    (hs : semicolon.lexeme = .mark .semicolon) :
    Accepts simple? (ts ++ [semicolon]) follow fun o => o.isSome = true := by
  refine Accepts.bind (Expr.accepts_read? he (.mark hs (by simp) (by simp))) fun o ho => ?_
  obtain ⟨e', rfl, -⟩ := ho
  refine .skip (declines_accept (.of_lexeme hs rfl)) (.pureBind ?_)
  exact .require (is_mark.mpr hs) (.pure rfl)

theorem accepts_assignment {op semicolon : Token} {us : List Token} {target e : Expr}
    (ht : Expression ts target) (ha : target.isAssignable = true)
    (hop : op.lexeme = .operator .assign) (he : Expression us e)
    (hs : semicolon.lexeme = .mark .semicolon) :
    Accepts simple? (ts ++ op :: us ++ [semicolon]) follow fun o => o.isSome = true := by
  rw [List.append_assoc]
  refine Accepts.bind (Expr.accepts_read? ht (.assign hop)) fun o ho => ?_
  obtain ⟨target', rfl, ha'⟩ := ho
  refine .accept (is_operator.mpr hop) ?_
  dsimp only
  rw [if_pos (ha'.trans ha)]
  refine Accepts.bind (Expr.accepts_readAfter he (.mark hs (by simp) (by simp)) op) fun v _ => ?_
  exact .pureBind (.require (is_mark.mpr hs) (.pure rfl))

theorem accepts_firstOf {α : Type} {r : Reader (Option α)} {rs : List (Reader (Option α))}
    (h : Accepts r ts follow fun o => o.isSome = true) :
    Accepts (firstOf (r :: rs)) ts follow fun o => o.isSome = true := by
  refine h.last fun o ho => ?_
  obtain ⟨a, rfl⟩ := Option.isSome_iff_exists.mp ho
  exact .pure rfl

theorem accepts_later {α : Type} {r : Reader (Option α)} {rs : List (Reader (Option α))}
    {P : Option α → Prop} (hr : Declines r (ts ++ follow)) (h : Accepts (firstOf rs) ts follow P) :
    Accepts (firstOf (r :: rs)) ts follow P :=
  .skip hr h

theorem accepts_as {α β : Type} {r : Reader (Option α)} {g : α → β}
    (h : Accepts r ts follow fun o => o.isSome = true) :
    Accepts ((·.map g) <$> r) ts follow fun o => o.isSome = true :=
  h.map fun o ho => by simpa using ho

/-- A reader that starts with another kind of token finds nothing. -/
theorem declines_led {α : Type} {l : Lexeme} {f : Option Token → Reader (Option α)}
    (h : Lacks l ts) (hf : f none = pure none) : Declines (accept? l >>= f) ts :=
  .bind (declines_accept h) (by rw [hf]; exact .pure)

theorem declines_branchWith? (h : Lacks (.keyword .ifKw) ts) (m : Nat) :
    Declines (branchWith? sub m) ts := by
  cases m with
  | zero => exact .pure
  | succ m => exact declines_led h rfl

/-- No declaration starts here. -/
theorem accepts_undeclared {rs : List (Reader (Option Stmt))} {P : Option Stmt → Prop}
    (hk : ∀ k ∈ [Keyword.varKw, .constKw, .typeKw], Lacks (.keyword k) (ts ++ follow))
    (h : Accepts (firstOf rs) ts follow P) :
    Accepts (firstOf ((·.map .varDecl) <$> VariableDecl.read? false ::
      (·.map .constDecl) <$> ConstantDecl.read? false ::
      (·.map .typeDef) <$> TypeDef.read? false :: rs)) ts follow P :=
  accepts_later (.map (declines_led (hk _ (by simp)) rfl)) <|
    accepts_later (.map (declines_led (hk _ (by simp)) rfl)) <|
      accepts_later (.map (declines_led (hk _ (by simp)) rfl)) h

/-- No keyword starts a statement here. -/
theorem accepts_unled {rs : List (Reader (Option Stmt))} {P : Option Stmt → Prop} {m : Nat}
    (hk : ∀ k, Lacks (.keyword k) (ts ++ follow)) (h : Accepts (firstOf rs) ts follow P) :
    Accepts (firstOf ((·.map .varDecl) <$> VariableDecl.read? false ::
      (·.map .constDecl) <$> ConstantDecl.read? false ::
      (·.map .typeDef) <$> TypeDef.read? false ::
      (·.map Branch.toStmt) <$> branchWith? sub m :: loopWith? sub :: ret? :: rs)) ts follow P :=
  accepts_undeclared (fun k _ => hk k) <|
    accepts_later (.map (declines_branchWith? (hk _) m)) <|
      accepts_later (declines_led (hk _) rfl) <| accepts_later (declines_led (hk _) rfl) h

/-- The last alternative, where an expression starts. -/
theorem accepts_lastOf {first rest : List Token} {e : Expr} {m : Nat} (he : Expression first e)
    (hts : ts = first ++ rest) (h : Accepts simple? ts follow fun o => o.isSome = true) :
    Accepts (firstOf [(·.map .varDecl) <$> VariableDecl.read? false,
      (·.map .constDecl) <$> ConstantDecl.read? false, (·.map .typeDef) <$> TypeDef.read? false,
      (·.map Branch.toStmt) <$> branchWith? sub m, loopWith? sub, ret?,
      (·.map .block) <$> Block.readWith? sub, simple?]) ts follow fun o => o.isSome = true := by
  obtain ⟨t, us, rfl, ht⟩ := he.head
  have hlacks : ∀ l, ((∃ k, l = .keyword k) ∨ l = .mark .leftBrace ∨ l = .mark .rightBrace) →
      Lacks l (ts ++ follow) := by
    intro l hl
    rw [hts]
    exact .cons (ht.sameKind hl)
  refine accepts_unled (fun k => hlacks _ (.inl ⟨k, rfl⟩)) ?_
  exact accepts_later (.map (declines_led (hlacks _ (.inr (.inl rfl))) rfl)) (accepts_firstOf h)

theorem accepts_readWith? (hs : ReadsStatements sub n) {st : Stmt} (h : Statement ts st)
    (hn : ts.length ≤ n + 1) (hf : Lacks (.keyword .elseKw) follow) :
    Accepts (readWith? sub) ts follow fun o => o.isSome = true := by
  refine .get fun c hc => ?_
  have hopen : (c.rest.isEmpty || c.sees (.mark .rightBrace)) = false := by
    obtain ⟨t, us, rfl, ht⟩ := h.head
    simp [Cursor.sees, Cursor.peek?, hc, ht.not_rightBrace]
  rw [if_neg (by simp [hopen])]
  -- The first token tells which alternative is taken; those before it find nothing.
  have hother : ∀ {t : Token} {us : List Token} {k : Keyword}, t.lexeme = .keyword k →
      k ∉ [Keyword.varKw, .constKw, .typeKw] →
      ∀ k' ∈ [Keyword.varKw, .constKw, .typeKw], Lacks (.keyword k') (t :: us) := by
    intro t us k ht hk k' hk'
    refine .of_lexeme ht ?_
    rw [Lexeme.sameKind, beq_eq_false_iff_ne]
    rintro rfl
    exact hk hk'
  cases h with
  | varDecl h => exact accepts_firstOf (accepts_as (VariableDecl.accepts_read? h))
  | constDecl h =>
    obtain ⟨t, us, rfl, ht⟩ := h.head
    refine accepts_later (.map (declines_led (.of_lexeme ht rfl) rfl)) ?_
    exact accepts_firstOf (accepts_as (ConstantDecl.accepts_read? h))
  | typeDef h =>
    obtain ⟨t, us, rfl, ht⟩ := h.head
    refine accepts_later (.map (declines_led (.of_lexeme ht rfl) rfl)) ?_
    refine accepts_later (.map (declines_led (.of_lexeme ht rfl) rfl)) ?_
    exact accepts_firstOf (accepts_as (TypeDef.accepts_read? h))
  | branch h =>
    obtain ⟨t, us, rfl, ht⟩ := h.head
    refine accepts_undeclared (hother ht (by simp)) (accepts_firstOf (accepts_as ?_))
    exact accepts_branchWith? hs h hn (by simp [hc]) hf
  | @loop kw ts us e b hkw he hb =>
    simp only [List.cons_append, List.length_cons, List.length_append] at hn
    refine accepts_undeclared (hother hkw (by simp)) ?_
    refine accepts_later (.map (declines_branchWith? (.of_lexeme hkw rfl) _)) ?_
    exact accepts_firstOf (accepts_loopWith? hs hkw he hb (by omega))
  | ret hkw hsemicolon =>
    refine accepts_undeclared (hother hkw (by simp)) ?_
    refine accepts_later (.map (declines_branchWith? (.of_lexeme hkw rfl) _)) ?_
    refine accepts_later (declines_led (.of_lexeme hkw rfl) rfl) ?_
    exact accepts_firstOf (accepts_ret? hkw (.inl rfl) hsemicolon)
  | retValue hkw he hsemicolon =>
    refine accepts_undeclared (hother hkw (by simp)) ?_
    refine accepts_later (.map (declines_branchWith? (.of_lexeme hkw rfl) _)) ?_
    refine accepts_later (declines_led (.of_lexeme hkw rfl) rfl) ?_
    exact accepts_firstOf (accepts_ret? hkw (.inr ⟨_, he⟩) hsemicolon)
  | block h =>
    obtain ⟨t, us, rfl, ht⟩ := h.head
    refine accepts_unled (fun k => .of_lexeme ht rfl) ?_
    exact accepts_firstOf (accepts_as (Block.accepts_readWith? hs h hn))
  | expr he hsemicolon => exact accepts_lastOf he rfl (accepts_simple? he hsemicolon)
  | assign ht ha hop he hsemicolon =>
    exact accepts_lastOf ht (List.append_assoc _ _ _) (accepts_assignment ht ha hop he hsemicolon)

theorem readsStatements_nested (depth : Nat) : ReadsStatements (nested depth) depth := by
  induction depth with
  | zero =>
    refine ⟨fun h hn _ => ?_, fun _ => .pure⟩
    obtain ⟨t, us, rfl, -⟩ := h.head
    simp at hn
  | succ depth ih =>
    refine ⟨fun h hn hf => accepts_readWith? ih h hn hf, fun hr => .get fun c hc => ?_⟩
    rw [if_pos (by simp [Cursor.sees, Cursor.peek?, hc, is_mark, hr])]
    exact .pure

end Stmt

end Statements

theorem Stmt.readsStatements_read? (n : Nat) : ReadsStatements Stmt.read? n where
  accepts h _ hf := .get fun c hc => (readsStatements_nested _).accepts h (by simp [hc]) hf
  declines hr := .get fun _ _ => (readsStatements_nested _).declines hr

theorem Block.accepts_read {b : Block} (h : Braces ts b) :
    Accepts Block.read ts follow fun _ => True :=
  Block.accepts_requireWith (Stmt.readsStatements_read? _) h (Nat.le_succ _)

/-! ### Files -/

theorem Grammar.FunctionDefinition.head {exported : Bool} {d : FunctionDef}
    (h : FunctionDefinition exported ts d) : ∃ t us, ts = t :: us ∧ t.lexeme = .keyword .fnKw := by
  cases h with
  | plain hkw => exact ⟨_, _, rfl, hkw⟩
  | returning hkw => exact ⟨_, _, rfl, hkw⟩

theorem FunctionDef.accepts_read? {exported : Bool} {d : FunctionDef}
    (h : FunctionDefinition exported ts d) :
    Accepts (FunctionDef.read? exported) ts follow fun o => o.isSome = true := by
  cases h with
  | @plain kw name l r ts us params body hkw hname hl hparams hr hbody =>
    have hsplit : kw :: name :: l :: ts ++ r :: us = kw :: name :: ((l :: ts ++ [r]) ++ us) := by simp
    rw [hsplit]
    refine .accept (is_keyword.mpr hkw) (.name hname ?_)
    refine Accepts.bind (Field.accepts_readBetween hl hparams hr (by simp) (by simp)) fun ps _ => ?_
    refine .skip (declines_accept ?_) (.pureBind ?_)
    · obtain ⟨t, us, rfl, ht⟩ := hbody.head
      exact .of_lexeme ht rfl
    · exact (Block.accepts_read hbody).last fun _ _ => .pure rfl
  | @returning kw name l r arrow ts us vs params a body hkw hname hl hparams hr harrow ha hbody =>
    have hsplit : kw :: name :: l :: ts ++ r :: arrow :: us ++ vs =
        kw :: name :: ((l :: ts ++ [r]) ++ arrow :: (us ++ vs)) := by simp
    rw [hsplit]
    refine .accept (is_keyword.mpr hkw) (.name hname ?_)
    refine Accepts.bind (Field.accepts_readBetween hl hparams hr (by simp) (by simp)) fun ps _ => ?_
    refine .accept (is_mark.mpr harrow) ?_
    have hbracket : Lacks (.mark .leftBracket) (vs ++ follow) := by
      obtain ⟨t, vs, rfl, ht⟩ := hbody.head
      exact .of_lexeme ht rfl
    have hreturns := (accepts_readAfter ha hbracket arrow).map (g := some)
      (Q := fun _ => True) fun _ _ => trivial
    refine Accepts.bind hreturns fun a' _ => ?_
    exact (Block.accepts_read hbody).last fun _ _ => .pure rfl

/-- A declaration starts with a keyword of its own. -/
theorem Grammar.Declaration.head {exported : Bool} {item : Item} (h : Declaration exported ts item) :
    ∃ t us k, ts = t :: us ∧ t.lexeme = .keyword k ∧ k ≠ .importKw ∧ k ≠ .exportKw := by
  cases h with
  | typeDef h =>
    obtain ⟨t, us, rfl, ht⟩ := h.head
    exact ⟨t, us, _, rfl, ht, by simp, by simp⟩
  | function h =>
    obtain ⟨t, us, rfl, ht⟩ := h.head
    exact ⟨t, us, _, rfl, ht, by simp, by simp⟩
  | varDecl h =>
    obtain ⟨t, us, rfl, ht⟩ := h.head
    exact ⟨t, us, _, rfl, ht, by simp, by simp⟩
  | constDecl h =>
    obtain ⟨t, us, rfl, ht⟩ := h.head
    exact ⟨t, us, _, rfl, ht, by simp, by simp⟩

namespace Item

theorem accepts_declaration? {exported : Bool} {item : Item} (h : Declaration exported ts item) :
    Accepts (declaration? exported) ts follow fun o => o.isSome = true := by
  cases h with
  | typeDef h => exact Stmt.accepts_firstOf (Stmt.accepts_as (TypeDef.accepts_read? h))
  | function h =>
    obtain ⟨t, us, rfl, ht⟩ := h.head
    refine Stmt.accepts_later (.map (Stmt.declines_led (.of_lexeme ht rfl) rfl)) ?_
    exact Stmt.accepts_firstOf (Stmt.accepts_as (FunctionDef.accepts_read? h))
  | varDecl h =>
    obtain ⟨t, us, rfl, ht⟩ := h.head
    refine Stmt.accepts_later (.map (Stmt.declines_led (.of_lexeme ht rfl) rfl)) ?_
    refine Stmt.accepts_later (.map (Stmt.declines_led (.of_lexeme ht rfl) rfl)) ?_
    exact Stmt.accepts_firstOf (Stmt.accepts_as (VariableDecl.accepts_read? h))
  | constDecl h =>
    obtain ⟨t, us, rfl, ht⟩ := h.head
    refine Stmt.accepts_later (.map (Stmt.declines_led (.of_lexeme ht rfl) rfl)) ?_
    refine Stmt.accepts_later (.map (Stmt.declines_led (.of_lexeme ht rfl) rfl)) ?_
    refine Stmt.accepts_later (.map (Stmt.declines_led (.of_lexeme ht rfl) rfl)) ?_
    exact Stmt.accepts_firstOf (Stmt.accepts_as (ConstantDecl.accepts_read? h))

theorem accepts_read? {item : Item} (h : TopLevel ts item) :
    Accepts Item.read? ts follow fun o => o.isSome = true := by
  cases h with
  | @importFile kw path semicolon file hkw hpath hs =>
    obtain ⟨lexeme, position⟩ := path
    obtain rfl := hpath
    have himport : Accepts Import.read? [kw, ⟨.text file, position⟩, semicolon] follow
        fun o => o.isSome = true :=
      .accept (is_keyword.mpr hkw) (.accept rfl (.require (is_mark.mpr hs) (.pure rfl)))
    refine himport.last fun o ho => ?_
    obtain ⟨i, rfl⟩ := Option.isSome_iff_exists.mp ho
    exact .pure rfl
  | plain h =>
    obtain ⟨t, us, k, rfl, ht, himport, hexport⟩ := h.head
    refine .skip (Stmt.declines_led (.of_lexeme ht ?_) rfl) (.skip (declines_accept (.of_lexeme ht ?_)) ?_)
    · simp [Lexeme.sameKind, himport]
    · simp [Lexeme.sameKind, hexport]
    · exact accepts_declaration? h
  | exported hkw h =>
    refine .skip (Stmt.declines_led (.of_lexeme hkw rfl) rfl) (.accept (is_keyword.mpr hkw) ?_)
    refine (accepts_declaration? h).last fun o ho => ?_
    obtain ⟨i, rfl⟩ := Option.isSome_iff_exists.mp ho
    exact .pure rfl

theorem accepts_readAll {items : List Item} (h : Module ts items) {m : Nat} (hm : ts.length ≤ m) :
    Accepts (readAll m) ts [] fun _ => True := by
  induction h generalizing m with
  | nil =>
    cases m with
    | zero => exact .pure trivial
    | succ m =>
      refine .get fun c hc => ?_
      rw [if_pos (by simp [hc])]
      exact .pure trivial
  | @cons ts us item items hitem _ ih =>
    have hpos := List.length_pos_iff.mpr hitem.ne_nil
    rw [List.length_append] at hm
    obtain _ | m := m
    · omega
    refine .get fun c hc => ?_
    have hsome : c.rest.isEmpty = false := by
      rw [List.isEmpty_eq_false_iff, hc]
      simp [hitem.ne_nil]
    rw [if_neg (by simp [hsome])]
    refine Accepts.bind (accepts_read? hitem) fun o ho => ?_
    obtain ⟨i, rfl⟩ := Option.isSome_iff_exists.mp ho
    exact (ih (by omega)).last fun _ _ => .pure trivial

end Item

/-- A list of tokens is read as a file exactly if the grammar derives it, and what is then read is
the tree of a derivation of the whole list. -/
theorem SourceFile.parse_recognises (file : String) (tokens : List Token) :
    ((∃ source, SourceFile.parse file tokens = .ok source) ↔ ∃ items, Module tokens items) ∧
      ∀ source, SourceFile.parse file tokens = .ok source →
        source.file = file ∧ Module tokens source.items := by
  refine ⟨⟨?_, ?_⟩, fun source h => module_of_parse h⟩
  · rintro ⟨source, h⟩
    exact ⟨source.items, (module_of_parse h).2⟩
  · rintro ⟨items, h⟩
    have hends := Item.accepts_readAll h (Nat.le_refl _) (.ofTokens tokens) (by simp [Cursor.ofTokens])
    unfold SourceFile.parse
    unfold Ends at hends
    split
    · exact ⟨_, rfl⟩
    · next hr =>
      rw [hr] at hends
      exact hends.elim

end StoragePlan
