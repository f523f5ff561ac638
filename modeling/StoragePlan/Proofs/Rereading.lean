import StoragePlan.Proofs.Precedence
import StoragePlan.Proofs.Printing
import StoragePlan.Proofs.Recognition

/-!
Printed expressions are read back as themselves. The printer puts parentheses around operators and
leaves calls, fields and subscripts bare. Reading the symbols again follows the tree:

* a suffixed expression is read from the left while its tree is nested to the left, so what is shown
  for it (`Trails`) leaves open how many suffixes are still to come;
* anything in parentheses is an operand, or two of them and an operator (`accepts_joined`), and the
  loops over the levels stop at the closing parenthesis;
* a minus goes into the number after it, and into nothing else.

What is read from a text has the form that all this asks for (`wellFormed_of_parse`). The main
statement, `printed_reads_back`, puts scanning and reading together.
-/

namespace StoragePlan

open Reader Grammar

/-! ### Expressions apart from numbers and places -/

/-- The token without its place. -/
def Token.bare (t : Token) : Token := ⟨t.lexeme, .start⟩

theorem Token.bare_eq {t u : Token} (h : t.lexeme = u.lexeme) : t.bare = u.bare := by
  rw [Token.bare, Token.bare, h]

/-- The tokens of some symbols and a last one. -/
theorem tokens_concat {ts : List Token} {ls : List Lexeme} {l : Lexeme}
    (h : ts.map (·.lexeme) = ls ++ [l]) :
    ∃ us r, ts = us ++ [r] ∧ us.map (·.lexeme) = ls ∧ r.lexeme = l := by
  obtain ⟨us, rest, rfl, hus, hrest⟩ := List.map_eq_append_iff.mp h
  obtain ⟨r, rfl, hr⟩ := List.map_eq_singleton_iff.mp hrest
  exact ⟨us, r, rfl, hus, hr⟩

namespace Expr

mutual

/-- The expression without the numbers of its nodes and the places of its tokens. -/
def bare : Expr → Expr
  | literal _ t => literal 0 t.bare
  | ident _ t => ident 0 t.bare
  | unary _ op operand => unary 0 op.bare operand.bare
  | binary _ left op right => binary 0 left.bare op.bare right.bare
  | call _ callee args => call 0 callee.bare (bareAll args)
  | index _ target bracket subscript => index 0 target.bare bracket.bare subscript.bare

def bareAll : List Expr → List Expr
  | [] => []
  | e :: rest => e.bare :: bareAll rest

end

/-- An expression was read that is `e` apart from numbers and places. -/
def Again (e : Expr) (o : Option Expr) : Prop := ∃ e', o = some e' ∧ e'.bare = e.bare

section Whole

variable {ts us follow : List Token}

theorem derives_operand : Derives (operandOf read?) (Optional Operand) :=
  derives_operandOf derives_read?

/-- The loops over operators end where none follows. -/
theorem accepts_joins {k : Nat} {left : Expr} (hf : ∀ t ∈ follow.head?, ¬ BinaryToken t) :
    Accepts (joins (operandOf read?) k left) [] follow (· = left) := by
  intro c hc
  have hstop : Stopped k c := by
    intro t ht
    rw [Bool.eq_false_iff]
    intro hb
    rw [hc] at ht
    exact hf t ht (binaryToken_of_bindsFrom hb)
  unfold Ends
  rw [joins_of_stopped derives_operand hstop]
  exact ⟨hc, rfl⟩

/-- An operand is an expression where no operator follows. -/
theorem accepts_whole {P : Option Expr → Prop} (h : Accepts (operandOf read?) ts follow P)
    (hf : ∀ t ∈ follow.head?, ¬ BinaryToken t) : Accepts read? ts follow P := by
  rw [read?_eq_levelOf, levelOf_eq_joins]
  apply h.last
  intro o ho
  cases o with
  | none => exact .pure ho
  | some first =>
    apply (accepts_joins hf).last
    rintro e rfl
    exact .pure ho

/-- Two operands and an operator between them. -/
theorem accepts_joined {left right : Expr} {op op' : Token} {id : Nat} (hop : BinaryToken op)
    (heq : op'.lexeme = op.lexeme)
    (hl : Accepts (operandOf read?) ts (op' :: us ++ follow) (Again left))
    (hr : Accepts (operandOf read?) us follow (Again right))
    (hf : ∀ t ∈ follow.head?, ¬ BinaryToken t) :
    Accepts read? (ts ++ op' :: us) follow (Again (.binary id left op right)) := by
  rw [read?_eq_levelOf, levelOf_eq_joins]
  refine Accepts.bind hl fun o ho => ?_
  obtain ⟨left', rfl, hleft⟩ := ho
  obtain ⟨j, hj⟩ := Option.isSome_iff_exists.mp hop
  -- What follows stops the loops of the right side and those after it, whatever the level is.
  have hafter : Accepts (joinsAfter (operandOf read?) 1 left' op') us follow fun e =>
      e.bare = (Expr.binary id left op right).bare := by
    apply hr.last
    rintro o ⟨first, rfl, hfirst⟩
    apply (accepts_joins hf).last
    rintro right' rfl
    apply Accepts.newId
    intro id'
    apply (accepts_joins hf).mono
    rintro e rfl
    simp only [bare, hleft, hfirst, Token.bare_eq heq]
  have hjoins : Accepts (joins (operandOf read?) 1 left') (op' :: us) follow fun e =>
      e.bare = (Expr.binary id left op right).bare := by
    intro c hc
    unfold Ends
    rw [joins_of_operator derives_operand hc (heq ▸ hj) (level_le hj).1]
    exact hafter _ rfl
  apply hjoins.last
  intro e he
  exact .pure ⟨e, rfl, he⟩

end Whole

/-- The printed expression is read again where an expression has to follow. -/
def Rereads (e : Expr) : Prop := ∀ ⦃ts follow : List Token⦄, ts.map (·.lexeme) = e.lexemes →
  Stops follow → Accepts read? ts follow (Again e)

theorem accepts_required_again {e : Expr} {ts follow : List Token}
    (h : Accepts read? ts follow (Again e)) (after : Token) :
    Accepts (required read? after) ts follow fun e' => e'.bare = e.bare := by
  apply h.last
  rintro o ⟨e', rfl, he⟩
  exact .pure he

/-! ### Suffixes -/

/-- Where the printed expression stands, a suffixed expression is read as one of which this much has
been read, and whose further fields and subscripts are still to come. The loop over them has enough
turns left for all tokens. -/
def Trails (e : Expr) : Prop := ∀ ⦃ts follow : List Token⦄ ⦃c : Cursor⦄, c.rest = ts ++ follow →
  ts.map (·.lexeme) = e.lexemes → Lacks (.mark .leftParen) follow →
  ∃ e' c' m, e'.bare = e.bare ∧ c'.rest = follow ∧ follow.length ≤ m ∧
    suffixed read? c = (suffixes read? m e' >>= fun e => pure (some e)) c'

theorem Trails.of_primary {e : Expr}
    (h : ∀ {ts follow : List Token}, ts.map (·.lexeme) = e.lexemes →
      Lacks (.mark .leftParen) follow → Accepts (primary read?) ts follow (Again e)) :
    Trails e := by
  intro ts follow c hc hts hf
  obtain ⟨o, c', hrun, hc', e', rfl, he'⟩ := Accepts.run (h hts hf) hc
  refine ⟨e', c', c'.rest.length, he', hc', by rw [hc'], ?_⟩
  rw [suffixed, bind_of_ok hrun]
  rfl

theorem suffixes_of_loose {sub : Reader (Option Expr)} {m : Nat} {e : Expr} {c : Cursor}
    (h : Loose c.rest) : suffixes sub m e c = .ok e c := by
  cases m with
  | zero => rfl
  | succ m =>
    rw [suffixes, bind_of_ok (declines_accept h.1 c rfl)]
    dsimp only
    rw [bind_of_ok (declines_accept h.2.1 c rfl)]
    rfl

/-- A field is taken as long as more suffixes may follow. -/
theorem suffixes_field {sub : Reader (Option Expr)} {m : Nat} {e : Expr} {c : Cursor}
    {op name : Token} {follow : List Token} (hc : c.rest = op :: name :: follow)
    (hop : op.lexeme = .operator .dot) (hname : NameToken name) :
    ∃ id id' c', c'.rest = follow ∧
      suffixes sub (m + 1) e c = suffixes sub m (.binary id e op (.ident id' name)) c' := by
  refine ⟨c.nextId + 1, c.nextId, ⟨c.index + 1 + 1, follow, c.final, c.nextId + 1 + 1⟩, rfl, ?_⟩
  rw [suffixes, bind_of_ok (accept?_of_is hc (is_operator.mpr hop))]
  dsimp only
  rw [acceptName?, bind_of_ok (accept?_of_is rfl (is_name.mpr hname))]
  rfl

/-- A subscript is taken as long as more suffixes may follow. -/
theorem suffixes_index {sub : Reader (Option Expr)} {m : Nat} {e : Expr} {c : Cursor} {l r : Token}
    {us follow : List Token} {P : Expr → Prop} (hc : c.rest = l :: (us ++ r :: follow))
    (hl : l.lexeme = .mark .leftBracket) (h : Accepts (required sub l) us (r :: follow) P)
    (hr : r.lexeme = .mark .rightBracket) :
    ∃ id i c', c'.rest = follow ∧ P i ∧
      suffixes sub (m + 1) e c = suffixes sub m (.index id e l i) c' := by
  have hdot : Lacks (.operator .dot) c.rest := by
    rw [hc]
    exact .of_lexeme hl rfl
  have hopen := accept?_of_is hc (is_mark.mpr hl)
  obtain ⟨i, c₁, hsub, hc₁, hi⟩ :=
    h.run (c := ⟨c.index + 1, us ++ r :: follow, c.final, c.nextId⟩) rfl
  have hclose : require (.mark .rightBracket) c₁ =
      .ok r { c₁ with index := c₁.index + 1, rest := follow } := by
    rw [require, bind_of_ok (accept?_of_is hc₁ (is_mark.mpr hr))]
    rfl
  refine ⟨c₁.nextId, i, ⟨c₁.index + 1, follow, c₁.final, c₁.nextId + 1⟩, rfl, hi, ?_⟩
  rw [suffixes, bind_of_ok (declines_accept hdot c rfl)]
  dsimp only
  rw [bind_of_ok hopen]
  dsimp only
  rw [bind_of_ok hsub, bind_of_ok hclose]
  rfl

theorem Trails.field {left : Expr} (h : Trails left) {op name : Token} {id id' : Nat}
    (hop : op.lexeme = .operator .dot) (hname : NameToken name) :
    Trails (.binary id left op (.ident id' name)) := by
  intro ts follow c hc hts hf
  rw [lexemes_access hop, lexemes] at hts
  obtain ⟨ts, rest, rfl, hleft, hrest⟩ := List.map_eq_append_iff.mp hts
  obtain ⟨op', rest, rfl, hop', hrest⟩ := List.map_eq_cons_iff.mp hrest
  obtain ⟨name', rfl, hname'⟩ := List.map_eq_singleton_iff.mp hrest
  rw [List.append_assoc] at hc
  obtain ⟨e', c₁, m, he', hc₁, hm, hrun⟩ := h hc hleft (.of_lexeme (hop'.trans hop) rfl)
  obtain _ | m := m
  · simp at hm
  have hn : NameToken name' := by
    obtain ⟨x, hx⟩ := hname
    exact ⟨x, hname'.trans hx⟩
  obtain ⟨n, n', c₂, hc₂, hstep⟩ := suffixes_field hc₁ (hop'.trans hop) hn
  refine ⟨_, c₂, m, ?_, hc₂, ?_, hrun.trans (bind_congr_run hstep)⟩
  · simp only [bare, he', Token.bare_eq hop', Token.bare_eq hname']
  · simp only [List.cons_append, List.length_cons, List.nil_append] at hm
    omega

theorem Trails.index {target subscript : Expr} (h : Trails target) {bracket : Token} {id : Nat}
    (hb : bracket.lexeme = .mark .leftBracket) (hi : Rereads subscript) :
    Trails (.index id target bracket subscript) := by
  intro ts follow c hc hts hf
  rw [lexemes] at hts
  obtain ⟨ts, rest, rfl, htarget, hrest⟩ := List.map_eq_append_iff.mp hts
  obtain ⟨l, rest, rfl, hl, hrest⟩ := List.map_eq_cons_iff.mp hrest
  obtain ⟨us, r, rfl, hsub, hr⟩ := tokens_concat hrest
  rw [List.append_assoc] at hc
  obtain ⟨e', c₁, m, he', hc₁, hm, hrun⟩ := h hc htarget (.of_lexeme (hl.trans hb) rfl)
  obtain _ | m := m
  · simp at hm
  have hstops : Stops (r :: follow) := .mark hr (by simp) (by simp)
  have hread := accepts_required_again (hi hsub hstops) l
  obtain ⟨n, i, c₂, hc₂, hbare, hstep⟩ :=
    suffixes_index (by simpa using hc₁) (hl.trans hb) hread hr
  refine ⟨_, c₂, m, ?_, hc₂, ?_, hrun.trans (bind_congr_run hstep)⟩
  · simp only [bare, he', hbare, Token.bare_eq hl]
  · simp only [List.cons_append, List.length_cons, List.length_append] at hm
    omega

/-! ### Operands -/

/-- The printed expression is read as an operand. -/
def Operates (e : Expr) : Prop := ∀ ⦃ts follow : List Token⦄ ⦃m : Nat⦄,
  ts.map (·.lexeme) = e.lexemes → Loose follow → ts.length ≤ m →
  Accepts (unaryOf read? m) ts follow (Again e)

theorem Trails.accepts_suffixed {e : Expr} (h : Trails e) {ts follow : List Token}
    (hts : ts.map (·.lexeme) = e.lexemes) (hf : Loose follow) :
    Accepts (suffixed read?) ts follow (Again e) := by
  intro c hc
  obtain ⟨e', c', m, he', hc', -, hrun⟩ := h hc hts hf.2.2
  have hend : suffixes read? m e' c' = .ok e' c' := suffixes_of_loose (by rwa [hc'])
  unfold Ends
  rw [hrun, bind_of_ok hend]
  exact ⟨hc', e', rfl, he'⟩

theorem Trails.operates {e : Expr} (h : Trails e) {l : Lexeme} {ls : List Lexeme}
    (hhead : e.lexemes = l :: ls) (hl : Leading l) : Operates e := by
  intro ts follow m hts hf _
  cases m with
  | zero => exact h.accepts_suffixed hts hf
  | succ m =>
    apply Accepts.skip
    · apply declines_nextIf
      rw [hhead] at hts
      obtain ⟨t, us, rfl, ht, -⟩ := List.map_eq_cons_iff.mp hts
      intro u hu
      obtain rfl : t = u := by simpa using hu
      cases hl <;> simp [Token.is, ht, Lexeme.sameKind]
    · exact h.accepts_suffixed hts hf

theorem Operates.rereads {e : Expr} (h : Operates e) : Rereads e := by
  intro ts follow hts hf
  apply accepts_whole _ hf.2
  exact .get fun c hc => h hts hf.1 (by simp [hc])

theorem trails_literal {t : Token} (ht : LiteralToken t) {id : Nat}
    (hls : (Expr.literal id t).lexemes = [t.lexeme]) : Trails (.literal id t) := by
  apply Trails.of_primary
  intro ts follow hts hf
  rw [hls] at hts
  obtain ⟨u, rfl, hu⟩ := List.map_eq_singleton_iff.mp hts
  have hliteral : LiteralToken u := by rwa [LiteralToken, hu]
  apply (accepts_literal hliteral).mono
  rintro o ⟨id', rfl⟩
  exact ⟨_, rfl, by simp only [bare, Token.bare_eq hu]⟩

theorem trails_ident {t : Token} (ht : NameToken t) (id : Nat) : Trails (.ident id t) := by
  apply Trails.of_primary
  intro ts follow hts hf
  obtain ⟨u, rfl, hu⟩ := List.map_eq_singleton_iff.mp hts
  have hname : NameToken u := by rwa [NameToken, hu]
  apply (accepts_ident hname hf).mono
  rintro o ⟨id', rfl⟩
  exact ⟨_, rfl, by simp only [bare, Token.bare_eq hu]⟩

theorem trails_number {id : Nat} {v : Int} {p : Position} (hv : ¬ v < 0) :
    Trails (.literal id ⟨.integer v, p⟩) :=
  trails_literal (.inl ⟨v, rfl⟩) (by simp only [lexemes, signed, if_neg hv])

/-- What is a number apart from its place is a number. -/
theorem integer_of_bare {e : Expr} {id : Nat} {v : Int} {p : Position}
    (h : e.bare = (Expr.literal id ⟨.integer v, p⟩).bare) :
    ∃ id' p', e = .literal id' ⟨.integer v, p'⟩ := by
  cases e with
  | literal id' t =>
    obtain ⟨lexeme, p'⟩ := t
    simp only [bare, Token.bare, Expr.literal.injEq, Token.mk.injEq, and_true, true_and] at h
    exact ⟨id', p', by rw [h]⟩
  | _ => simp [bare] at h

/-- A minus and the number after it are read as a negative number. -/
theorem operates_negative {id : Nat} {v : Int} {p : Position} (hv : v < 0) :
    Operates (.literal id ⟨.integer v, p⟩) := by
  intro ts follow m hts hf hm
  simp only [lexemes, signed, if_pos hv] at hts
  obtain ⟨op, rest, rfl, hop, hrest⟩ := List.map_eq_cons_iff.mp hts
  obtain _ | m := m
  · simp at hm
  have hpos : ¬ -v < 0 := by omega
  have hlexemes : (Expr.literal id ⟨.integer (-v), p⟩).lexemes = [.integer (-v)] := by
    simp only [lexemes, signed, if_neg hpos]
  have hnumber := (trails_number hpos).operates hlexemes (.integer (-v))
  simp only [List.length_cons] at hm
  refine .acceptAny ⟨.operator .minus, by simp, is_operator.mpr hop⟩ ?_
  apply (hnumber (hrest.trans hlexemes.symm) hf (by omega)).last
  rintro o ⟨e, rfl, he⟩
  obtain ⟨id', p', rfl⟩ := integer_of_bare he
  simp only [applyUnary, hop, Int.neg_neg]
  exact .pure ⟨_, rfl, rfl⟩

/-- A sign before an operand that it does not become part of. -/
theorem accepts_applied {op op' : Token} {operand : Expr} {id m : Nat} {ts follow : List Token}
    (hop : UnaryToken op) (hnot : ¬ IsNegatable op operand) (heq : op'.lexeme = op.lexeme)
    (h : Accepts (unaryOf read? m) ts follow (Again operand)) :
    Accepts (unaryOf read? (m + 1)) (op' :: ts) follow (Again (.unary id op operand)) := by
  have hunary : UnaryToken op' := by rwa [UnaryToken, heq]
  refine .acceptAny (by simpa [UnaryToken, is_operator] using hunary) ?_
  apply h.last
  rintro o ⟨e, rfl, he⟩
  dsimp only
  unfold applyUnary
  split
  · next id' v p' hminus =>
    obtain ⟨id'', p'', rfl⟩ := integer_of_bare he.symm
    exact absurd ⟨heq.symm.trans hminus, _, _, _, rfl⟩ hnot
  · rw [bind_assoc]
    refine .newId fun id' => .pure ⟨_, rfl, ?_⟩
    simp only [bare, he, Token.bare_eq heq]

/-! ### Arguments -/

/-- The arguments of a call are read up to the closing parenthesis. -/
theorem accepts_args {args : List Expr} (h : ∀ e ∈ args, Rereads e ∧ e.lexemes ≠ [])
    {ts follow : List Token} {r : Token} (hts : ts.map (·.lexeme) = argLexemes args)
    (hr : r.lexeme = .mark .rightParen) {m : Nat} (hm : ts.length ≤ m) :
    Accepts (arguments read? m) ts (r :: follow) fun args' => bareAll args' = bareAll args := by
  induction args generalizing ts m with
  | nil =>
    obtain rfl := List.map_eq_nil_iff.mp hts
    cases m with
    | zero => exact .pure rfl
    | succ m =>
      refine .skip (declines_read? ?_) (.pure rfl)
      simp [OpensExpr, LiteralToken, NameToken, UnaryToken, hr]
  | cons e args ih =>
    rw [List.forall_mem_cons] at h
    rw [argLexemes] at hts
    obtain ⟨us, rest, rfl, hus, hrest⟩ := List.map_eq_append_iff.mp hts
    have hpos : 0 < us.length := by
      rw [List.length_pos_iff]
      rintro rfl
      exact h.1.2 hus.symm
    rw [List.length_append] at hm
    obtain _ | m := m
    · omega
    cases args with
    | nil =>
      obtain rfl := List.map_eq_nil_iff.mp hrest
      have hstops : Stops ([] ++ r :: follow) := .mark hr (by simp) (by simp)
      refine Accepts.bind (h.1.1 hus hstops) fun o ho => ?_
      obtain ⟨e', rfl, he⟩ := ho
      refine .skip (declines_accept (.of_lexeme hr rfl)) (.pure ?_)
      simp only [bareAll, he]
    | cons next args =>
      obtain ⟨comma, rest, rfl, hcomma, hmore⟩ := List.map_eq_cons_iff.mp hrest
      have hstops : Stops (comma :: rest ++ r :: follow) := .mark hcomma (by simp) (by simp)
      refine Accepts.bind (h.1.1 hus hstops) fun o ho => ?_
      obtain ⟨e', rfl, he⟩ := ho
      refine .accept (is_mark.mpr hcomma) ?_
      rw [List.length_cons] at hm
      apply (ih h.2 hmore (by omega)).last
      intro args' hargs'
      exact .pure (by simp only [bareAll, he, hargs'])

/-! ### Whole expressions -/

/-- Parentheses around what is read again. -/
theorem trails_paren {e : Expr} {ls : List Lexeme}
    (hls : e.lexemes = .mark .leftParen :: (ls ++ [.mark .rightParen]))
    (h : ∀ {ts follow : List Token}, ts.map (·.lexeme) = ls → Stops follow →
      Accepts read? ts follow (Again e)) : Trails e := by
  apply Trails.of_primary
  intro ts follow hts hf
  rw [hls] at hts
  obtain ⟨l, rest, rfl, hl, hrest⟩ := List.map_eq_cons_iff.mp hts
  obtain ⟨us, r, rfl, hus, hr⟩ := tokens_concat hrest
  have hstops : Stops (r :: follow) := .mark hr (by simp) (by simp)
  exact accepts_paren hl (accepts_required_again (h hus hstops) l) hr

/-- As an operand, a negative number is the one thing that is not read as a suffixed expression. -/
theorem WellFormed.operates {e : Expr} (h : WellFormed e) (hp : e.isPlain = true)
    (ht : e.isNegative = false → Trails e) : Operates e := by
  obtain ⟨l, ls, hls, ⟨hneg, -⟩ | ⟨hpos, hl⟩⟩ := h.head hp
  · cases h with
    | integer => exact operates_negative (by simpa [isNegative] using hneg)
    | _ => cases hneg
  · exact (ht hpos).operates hls hl

theorem WellFormed.trails {e : Expr} (h : WellFormed e) (hp : e.isPlain = true)
    (hn : e.isNegative = false) : Trails e := by
  -- Below a sign, an operator or in brackets the parts are operands, which may be negative numbers;
  -- before a suffix they are not, since the expression is plain.
  induction h with
  | integer => exact trails_number (by simpa [isNegative] using hn)
  | text id s p => exact trails_literal (.inr ⟨s, rfl⟩) rfl
  | name id ht =>
    obtain ⟨x, hx, -⟩ := ht
    exact trails_ident ⟨x, hx⟩ id
  | @unary op operand id hop hnot hf ih =>
    have hoperand := hf.operates hp (ih hp)
    have hls : (Expr.unary id op operand).lexemes =
        .mark .leftParen :: (op.lexeme :: operand.lexemes ++ [.mark .rightParen]) := rfl
    apply trails_paren hls
    intro ts follow hts hstops
    obtain ⟨op', us, rfl, hop', hus⟩ := List.map_eq_cons_iff.mp hts
    apply accepts_whole _ hstops.2
    apply Accepts.get
    intro c hc
    rw [hc, List.cons_append, List.length_cons]
    exact accepts_applied hop hnot hop' (hoperand hus hstops.1 (by simp))
  | @joined op left right id hop hl hr ihl ihr =>
    simp only [isPlain, Bool.and_eq_true] at hp
    have hleft := hl.operates hp.2.1 (ihl hp.2.1)
    have hright := hr.operates hp.2.2 (ihr hp.2.2)
    apply trails_paren (lexemes_joined hop)
    intro ts follow hts hstops
    obtain ⟨ts, rest, rfl, htl, hrest⟩ := List.map_eq_append_iff.mp hts
    obtain ⟨op', us, rfl, hop', hus⟩ := List.map_eq_cons_iff.mp hrest
    have hbinary : BinaryToken op' := by rwa [BinaryToken, hop']
    refine accepts_joined hop hop' (.get fun c hc => ?_) (.get fun c hc => ?_) hstops.2
    · exact hleft htl (.binary hbinary) (by simp [hc])
    · exact hright hus hstops.1 (by simp [hc])
  | @field op name left id id' hop hl hname ih =>
    simp only [isPlain, isAccess_dot hop, Bool.true_and, Bool.and_eq_true, Bool.not_eq_true'] at hp
    obtain ⟨x, hx, -⟩ := hname
    exact (ih hp.2.1 hp.1).field hop ⟨x, hx⟩
  | @call callee args id hc hf ih =>
    rw [isPlain] at hp
    have hargs : ∀ e ∈ args, Rereads e ∧ e.lexemes ≠ [] := by
      intro e he
      have hplain := isPlain_of_mem hp he
      obtain ⟨l, ls, hls, -⟩ := (hf e he).head hplain
      exact ⟨((hf e he).operates hplain (ih e he hplain)).rereads, by simp [hls]⟩
    apply Trails.of_primary
    intro ts follow hts hf
    rw [lexemes] at hts
    obtain ⟨callee', rest, rfl, hcallee, hrest⟩ := List.map_eq_cons_iff.mp hts
    obtain ⟨l, rest, rfl, hl, hrest⟩ := List.map_eq_cons_iff.mp hrest
    obtain ⟨us, r, rfl, hus, hr⟩ := tokens_concat hrest
    have hname : NameToken callee' := by
      obtain ⟨x, hx, -⟩ := hc
      exact ⟨x, hcallee.trans hx⟩
    have hread : ∀ m, us.length ≤ m → Accepts (arguments read? m) us (r :: follow) fun args' =>
        bareAll args' = bareAll args := fun m hm => accepts_args hargs hus hr hm
    apply (accepts_call hname hl hread hr).mono
    rintro o ⟨id', args', rfl, hbare⟩
    exact ⟨_, rfl, by simp only [bare, hbare, Token.bare_eq hcallee]⟩
  | @index bracket target subscript id hb hl hr ihl ihr =>
    simp only [isPlain, Bool.and_eq_true, Bool.not_eq_true'] at hp
    have hsub := hr.operates hp.2.2 (ihr hp.2.2)
    exact (ihl hp.2.1 hp.1).index hb hsub.rereads

/-- The tokens of a printed expression are read as the expression. -/
theorem WellFormed.rereads {e : Expr} (h : WellFormed e) (hp : e.isPlain = true) : Rereads e :=
  (h.operates hp (h.trails hp)).rereads

end Expr

/-! ### A variable with the expression for its value -/

theorem Item.accepts_variable {P : VariableDecl → Prop} {kw : Token} {ts follow : List Token}
    (hkw : kw.lexeme = .keyword .varKw)
    (h : Accepts (VariableDecl.read? false) (kw :: ts) follow fun o => ∃ d, o = some d ∧ P d) :
    Accepts Item.read? (kw :: ts) follow fun o => ∃ d, o = some (.varDecl d) ∧ P d := by
  refine .skip (Stmt.declines_led (.of_lexeme hkw rfl) rfl) ?_
  refine .skip (declines_accept (.of_lexeme hkw rfl)) ?_
  refine Stmt.accepts_later (.map (Stmt.declines_led (.of_lexeme hkw rfl) rfl)) ?_
  refine Stmt.accepts_later (.map (Stmt.declines_led (.of_lexeme hkw rfl) rfl)) ?_
  have hitem : Accepts ((·.map Item.varDecl) <$> VariableDecl.read? false) (kw :: ts) follow
      fun o => ∃ d, o = some (.varDecl d) ∧ P d := by
    apply h.map
    rintro o ⟨d, rfl, hd⟩
    exact ⟨d, rfl, hd⟩
  apply hitem.last
  rintro o ⟨d, rfl, hd⟩
  exact .pure ⟨d, rfl, hd⟩

theorem SourceFile.parse_variable {P : VariableDecl → Prop} {kw : Token} {ts : List Token}
    (file : String) (hkw : kw.lexeme = .keyword .varKw)
    (h : Accepts (VariableDecl.read? false) (kw :: ts) [] fun o => ∃ d, o = some d ∧ P d) :
    ∃ d, SourceFile.parse file (kw :: ts) = .ok ⟨file, [.varDecl d]⟩ ∧ P d := by
  have hall : Accepts (Item.readAll (ts.length + 1)) (kw :: ts) [] fun items =>
      ∃ d, items = [.varDecl d] ∧ P d := by
    refine .get fun c hc => ?_
    rw [if_neg (by simp [hc])]
    apply (Item.accepts_variable hkw h).last
    rintro o ⟨d, rfl, hd⟩
    have hend : Accepts (Item.readAll ts.length) [] [] (· = []) := by
      cases ts.length with
      | zero => exact .pure rfl
      | succ n =>
        refine .get fun c hc => ?_
        rw [if_pos (by simp [hc])]
        exact .pure rfl
    apply hend.last
    rintro items rfl
    exact .pure ⟨d, rfl, hd⟩
  obtain ⟨items, c, hrun, -, d, rfl, hd⟩ :=
    hall.run (c := .ofTokens (kw :: ts)) (by simp [Cursor.ofTokens])
  refine ⟨d, ?_, hd⟩
  rw [SourceFile.parse, List.length_cons, hrun]

namespace Expr

/-- The text of the expression, as the value of a variable, is read as the expression again. -/
theorem WellFormed.parse_declared {e : Expr} (h : WellFormed e) (hp : e.isPlain = true)
    (file : String) :
    ∃ d, SourceFile.parse file (scan e.declared).tokens = .ok ⟨file, [.varDecl d]⟩ ∧
      ∃ e', d.value = some e' ∧ e'.bare = e.bare := by
  have hscan := (h.scan_declared hp).1
  obtain ⟨kw, rest, htokens, hkw, hrest⟩ := List.map_eq_cons_iff.mp hscan
  obtain ⟨name, rest, rfl, hname, hrest⟩ := List.map_eq_cons_iff.mp hrest
  obtain ⟨colon, rest, rfl, hcolon, hrest⟩ := List.map_eq_cons_iff.mp hrest
  obtain ⟨type, rest, rfl, htype, hrest⟩ := List.map_eq_cons_iff.mp hrest
  obtain ⟨assign, rest, rfl, hassign, hrest⟩ := List.map_eq_cons_iff.mp hrest
  obtain ⟨us, semicolon, rfl, hus, hsemicolon⟩ := tokens_concat hrest
  rw [htokens]
  have htyped : Typed [name, colon, type] ⟨name, ⟨type, []⟩⟩ :=
    .mk ⟨_, hname⟩ hcolon (.mk (.inl ⟨_, htype⟩) .nil)
  have hstops : Stops [semicolon] := .mark hsemicolon (by simp) (by simp)
  have hvalue := accepts_required_again (h.rereads hp hus hstops) assign
  apply SourceFile.parse_variable file hkw
  apply (VariableDecl.accepts_valued hkw htyped hassign hvalue hsemicolon).mono
  rintro o ⟨d, e', rfl, hd, he'⟩
  exact ⟨d, rfl, e', hd, he'⟩

/-- The expression is read from the text of some file. -/
def Returned (e : Expr) : Prop := ∃ file text source,
  SourceFile.parse file (scan text).tokens = .ok source ∧ e ∈ source.nodes

/-- The declaration with the expression is scanned and read without an error, as one variable whose
value is the expression apart from numbers and places. -/
def ReadsBack (e : Expr) : Prop := ∀ file, (scan e.declared).fault = none ∧
  ∃ d, SourceFile.parse file (scan e.declared).tokens = .ok ⟨file, [.varDecl d]⟩ ∧
    ∃ e', d.value = some e' ∧ e'.bare = e.bare

theorem Returned.readsBack {e : Expr} (h : Returned e) (hp : e.isPlain = true) : ReadsBack e := by
  intro file
  obtain ⟨_, text, source, hparse, he⟩ := h
  have hformed := SourceFile.wellFormed_of_parse hparse e he
  exact ⟨(hformed.scan_declared hp).2, hformed.parse_declared hp file⟩

/-- One text is read in one way only. -/
theorem ReadsBack.bare_eq {e other : Expr} (h : ReadsBack e) (h' : ReadsBack other)
    (htext : other.text = e.text) : other.bare = e.bare := by
  obtain ⟨-, d, hparse, e', hd, he'⟩ := h ""
  obtain ⟨-, d', hparse', e'', hd', he''⟩ := h' ""
  have hsame : other.declared = e.declared := by rw [declared, declared, htext]
  rw [hsame, hparse] at hparse'
  cases hparse'
  rw [hd] at hd'
  cases hd'
  rw [← he', ← he'']

/-- Printed expressions are read back as themselves, so those that are printed alike are the same. -/
theorem printed_reads_back {e : Expr} (h : Returned e) (hp : e.isPlain = true) :
    ReadsBack e ∧ ∀ other : Expr, Returned other → other.isPlain = true → other.text = e.text →
      other.bare = e.bare := by
  have hback := h.readsBack hp
  constructor
  · exact hback
  · intro other hother hplain htext
    exact hback.bare_eq (hother.readsBack hplain) htext

/-- Signs before signs, negative numbers, a call, a subscript and a field. -/
theorem printed_reads_back_nested : ∃ e d e',
    Returned e ∧ e.isPlain = true ∧
    e.declared = "var x: u8 = (~(-g((!-2), \"a\")[((i * 2) - -3)].x));" ∧
    SourceFile.parse "b" (scan e.declared).tokens = .ok ⟨"b", [.varDecl d]⟩ ∧ d.value = some e' ∧
    e'.bare = e.bare := by
  have hsample : (match SourceFile.parse "a"
      (scan "var y: u8 = ~-g(!-2, \"a\")[i * 2 - -3].x;").tokens with
    | .ok source => source.nodes.any fun e => e.isPlain &&
        e.declared == "var x: u8 = (~(-g((!-2), \"a\")[((i * 2) - -3)].x));"
    | .error _ => false) = true := by decide +kernel
  split at hsample
  · next source hparse =>
    obtain ⟨e, he, htest⟩ := List.any_eq_true.mp hsample
    rw [Bool.and_eq_true, beq_iff_eq] at htest
    have hreturned : Returned e := ⟨_, _, source, hparse, he⟩
    obtain ⟨d, hread, e', hd, he'⟩ := ((printed_reads_back hreturned htest.1).1 "b").2
    exact ⟨e, d, e', hreturned, htest.1, htest.2, hread, hd, he'⟩
  · cases hsample

end Expr

end StoragePlan
