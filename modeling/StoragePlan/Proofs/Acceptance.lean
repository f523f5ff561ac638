import StoragePlan.Proofs.Derivations

/-!
What is in the grammar is read. `Accepts x ts follow P` says that the reader `x` takes exactly the
tokens `ts` where `follow` comes after them, and answers as `P` says. What may follow is part of each
statement: an expression ends only where no operator, field, subscript or call goes on with it.

A reader may group the operands of an expression in another way than a given derivation does. All
that the rest of the grammar asks of an expression is whether it can be assigned to, and that does
not depend on the grouping.
-/

namespace StoragePlan

open Reader Grammar

/-- The reader takes exactly the tokens `ts`, does not fail, and its answer satisfies `P`. -/
def Accepts {α : Type} (x : Reader α) (ts follow : List Token) (P : α → Prop) : Prop :=
  ∀ c : Cursor, c.rest = ts ++ follow →
    Ends x c (fun a c' => c'.rest = follow ∧ P a) (fun _ _ => False)

/-- The reader finds nothing before the tokens `ts` and leaves the cursor alone. -/
def Declines {α : Type} (x : Reader (Option α)) (ts : List Token) : Prop :=
  ∀ c : Cursor, c.rest = ts → x c = .ok none c

/-- No token of the kind of `l` comes first. -/
def Lacks (l : Lexeme) (ts : List Token) : Prop := ∀ t ∈ ts.head?, t.is l = false

theorem Lacks.cons {l : Lexeme} {t : Token} {ts : List Token} (h : t.is l = false) :
    Lacks l (t :: ts) := by
  simpa [Lacks] using h

theorem Lacks.of_lexeme {l k : Lexeme} {t : Token} {ts : List Token} (h : t.lexeme = k)
    (hl : k.sameKind l = false) : Lacks l (t :: ts) :=
  .cons (by rw [Token.is, h, hl])

theorem nextIf?_of_pass {test : Token → Bool} {c : Cursor} {t : Token} {ts : List Token}
    (hc : c.rest = t :: ts) (ht : test t = true) :
    nextIf? test c = .ok (some t) { c with index := c.index + 1, rest := ts } := by
  simp [nextIf?, hc, ht]

theorem accept?_of_is {l : Lexeme} {c : Cursor} {t : Token} {ts : List Token}
    (hc : c.rest = t :: ts) (ht : t.is l = true) :
    accept? l c = .ok (some t) { c with index := c.index + 1, rest := ts } :=
  nextIf?_of_pass hc ht

theorem declines_nextIf {test : Token → Bool} {ts : List Token}
    (h : ∀ t ∈ ts.head?, test t = false) : Declines (nextIf? test) ts := by
  rintro c rfl
  unfold nextIf?
  split
  · rfl
  · next t rest hr =>
    have ht := h t (by simp [hr])
    simp [ht]

theorem declines_accept {l : Lexeme} {ts : List Token} (h : Lacks l ts) : Declines (accept? l) ts :=
  declines_nextIf h

namespace Declines

variable {α β : Type} {x : Reader (Option α)} {f : Option α → Reader (Option β)} {ts : List Token}

theorem pure : Declines (Pure.pure none : Reader (Option α)) ts := fun _ _ => rfl

theorem bind (hx : Declines x ts) (hf : Declines (f none) ts) : Declines (x >>= f) ts :=
  fun c hc => (bind_of_ok (hx c hc)).trans (hf c hc)

theorem get {f : Cursor → Reader (Option β)} (hf : ∀ c, c.rest = ts → Declines (f c) ts) :
    Declines (MonadState.get >>= f) ts := fun c hc => bind_get.trans (hf c hc c hc)

theorem map {g : α → β} (hx : Declines x ts) : Declines ((·.map g) <$> x) ts := by
  intro c hc
  change EStateM.map _ x c = _
  simp [EStateM.map, hx c hc]

end Declines

namespace Accepts

variable {α β : Type} {x : Reader α} {f : α → Reader β} {ts us follow : List Token}
  {P P' : α → Prop} {Q : β → Prop}

theorem run {c : Cursor} (h : Accepts x ts follow P) (hc : c.rest = ts ++ follow) :
    ∃ a c', x c = .ok a c' ∧ c'.rest = follow ∧ P a := by
  have hends := h c hc
  unfold Ends at hends
  split at hends
  · next a c' hx => exact ⟨a, c', hx, hends.1, hends.2⟩
  · exact hends.elim

theorem pure {a : α} (h : P a) : Accepts (Pure.pure a) [] follow P := fun _ hc => Ends.pure ⟨hc, h⟩

theorem mono (h : Accepts x ts follow P) (hp : ∀ a, P a → P' a) : Accepts x ts follow P' :=
  fun c hc => (h c hc).mono (fun a _ ha => ⟨ha.1, hp a ha.2⟩) (fun _ _ h => h)

theorem bind (hx : Accepts x ts (us ++ follow) P) (hf : ∀ a, P a → Accepts (f a) us follow Q) :
    Accepts (x >>= f) (ts ++ us) follow Q := by
  intro c hc
  refine (hx c (by rw [hc, List.append_assoc])).seq (fun _ _ h => h) ?_
  rintro a c' ⟨hc', ha⟩
  exact hf a ha c' hc'

/-- A step that is the last to take tokens. -/
theorem last (hx : Accepts x ts follow P) (hf : ∀ a, P a → Accepts (f a) [] follow Q) :
    Accepts (x >>= f) ts follow Q := by
  have hboth : Accepts (x >>= f) (ts ++ []) follow Q := Accepts.bind hx hf
  rwa [List.append_nil] at hboth

theorem map {g : α → β} (hx : Accepts x ts follow P) (hg : ∀ a, P a → Q (g a)) :
    Accepts (g <$> x) ts follow Q := fun c hc =>
  Ends.map ((hx c hc).mono (fun a _ ha => ⟨ha.1, hg a ha.2⟩) (fun _ _ h => h))

theorem get {f : Cursor → Reader β} (hf : ∀ c, c.rest = ts ++ follow → Accepts (f c) ts follow Q) :
    Accepts (MonadState.get >>= f) ts follow Q := fun c hc => Ends.bind (Ends.get (hf c hc c hc))

theorem newId {f : Nat → Reader β} (hf : ∀ id, Accepts (f id) ts follow Q) :
    Accepts (Reader.newId >>= f) ts follow Q := by
  intro c hc
  refine Ends.bind ?_
  exact hf c.nextId { c with nextId := c.nextId + 1 } hc

theorem pureBind {a : α} (h : Accepts (f a) ts follow Q) : Accepts (Pure.pure a >>= f) ts follow Q :=
  h

/-- A step that finds nothing. -/
theorem skip {x : Reader (Option α)} {f : Option α → Reader β} (hx : Declines x (ts ++ follow))
    (hf : Accepts (f none) ts follow Q) : Accepts (x >>= f) ts follow Q := by
  intro c hc
  refine Ends.bind ?_
  unfold Ends
  rw [hx c hc]
  exact hf c hc

theorem nextIf {test : Token → Bool} {f : Option Token → Reader β} {t : Token}
    (ht : test t = true) (hf : Accepts (f (some t)) ts follow Q) :
    Accepts (nextIf? test >>= f) (t :: ts) follow Q := by
  intro c hc
  refine Ends.bind ?_
  unfold Ends
  rw [nextIf?_of_pass hc ht]
  exact hf _ rfl

theorem accept {l : Lexeme} {f : Option Token → Reader β} {t : Token} (ht : t.is l = true)
    (hf : Accepts (f (some t)) ts follow Q) : Accepts (accept? l >>= f) (t :: ts) follow Q :=
  nextIf ht hf

theorem acceptAny {set : List Lexeme} {f : Option Token → Reader β} {t : Token}
    (ht : ∃ l ∈ set, t.is l = true) (hf : Accepts (f (some t)) ts follow Q) :
    Accepts (acceptAny? set >>= f) (t :: ts) follow Q :=
  nextIf (by simpa using ht) hf

theorem require {l : Lexeme} {f : Token → Reader β} {t : Token} (ht : t.is l = true)
    (hf : Accepts (f t) ts follow Q) : Accepts (Reader.require l >>= f) (t :: ts) follow Q := by
  have htake : Accepts (Reader.require l) [t] (ts ++ follow) (· = t) := accept ht (pure rfl)
  exact Accepts.bind htake fun a ha => ha ▸ hf

end Accepts

/-! ### What starts and what ends an expression -/

/-- The token can start an expression. -/
def OpensExpr (t : Token) : Prop :=
  t.lexeme = .mark .leftParen ∨ LiteralToken t ∨ NameToken t ∨ UnaryToken t

/-- Nothing that goes on with an operand comes first. -/
def Loose (follow : List Token) : Prop :=
  Lacks (.operator .dot) follow ∧ Lacks (.mark .leftBracket) follow ∧
    Lacks (.mark .leftParen) follow

/-- Nothing that goes on with an expression comes first. -/
def Stops (follow : List Token) : Prop :=
  Loose follow ∧ ∀ t ∈ follow.head?, ¬ BinaryToken t

theorem Stops.mark {t : Token} {ts : List Token} {m : Mark} (h : t.lexeme = .mark m)
    (hb : m ≠ .leftBracket) (hp : m ≠ .leftParen) : Stops (t :: ts) := by
  simp [Stops, Loose, Lacks, Token.is, h, Lexeme.sameKind, BinaryToken, Lexeme.level?, hb, hp]

theorem Stops.assign {t : Token} {ts : List Token} (h : t.lexeme = .operator .assign) :
    Stops (t :: ts) := by
  simp [Stops, Loose, Lacks, Token.is, h, Lexeme.sameKind, BinaryToken, Lexeme.level?,
    Operator.level?]

theorem Loose.binary {t : Token} {ts : List Token} (h : BinaryToken t) : Loose (t :: ts) := by
  unfold BinaryToken at h
  cases hl : t.lexeme with
  | operator op =>
    cases op <;> simp_all [Loose, Lacks, Token.is, Lexeme.sameKind, Lexeme.level?, Operator.level?]
  | _ => simp [hl, Lexeme.level?] at h

/-- The first token of a primary. -/
theorem Grammar.Primary.head {ts : List Token} {e : Expr} (h : Primary ts e) :
    ∃ t us, ts = t :: us ∧ (t.lexeme = .mark .leftParen ∨ LiteralToken t ∨ NameToken t) := by
  cases h with
  | literal _ ht => exact ⟨_, _, rfl, .inr (.inl ht)⟩
  | name _ ht => exact ⟨_, _, rfl, .inr (.inr ht)⟩
  | call _ ht => exact ⟨_, _, rfl, .inr (.inr ht)⟩
  | paren hl => exact ⟨_, _, rfl, .inl hl⟩

theorem Grammar.Suffixed.head {ts : List Token} {e : Expr} :
    Suffixed ts e →
      ∃ t us, ts = t :: us ∧ (t.lexeme = .mark .leftParen ∨ LiteralToken t ∨ NameToken t)
  | .primary h => h.head
  | .field _ _ h _ _ => by
    obtain ⟨t, us, rfl, ht⟩ := head h
    exact ⟨t, _, rfl, ht⟩
  | .index _ h _ _ _ => by
    obtain ⟨t, us, rfl, ht⟩ := head h
    exact ⟨t, _, rfl, ht⟩

theorem Grammar.Operand.head {ts : List Token} {e : Expr} (h : Operand ts e) :
    ∃ t us, ts = t :: us ∧ OpensExpr t := by
  cases h with
  | suffixed h =>
    obtain ⟨t, us, rfl, ht⟩ := h.head
    refine ⟨t, us, rfl, ?_⟩
    rcases ht with ht | ht | ht
    · exact .inl ht
    · exact .inr (.inl ht)
    · exact .inr (.inr (.inl ht))
  | negated hop => exact ⟨_, _, rfl, .inr (.inr (.inr (.inl hop)))⟩
  | applied _ hop => exact ⟨_, _, rfl, .inr (.inr (.inr hop))⟩

theorem Grammar.Expression.head {ts : List Token} {e : Expr} :
    Expression ts e → ∃ t us, ts = t :: us ∧ OpensExpr t
  | .operand h => h.head
  | .joined _ h _ _ => by
    obtain ⟨t, us, rfl, ht⟩ := head h
    exact ⟨t, _, rfl, ht⟩

theorem Grammar.Expression.length_pos {ts : List Token} {e : Expr} (h : Expression ts e) :
    0 < ts.length := by
  obtain ⟨t, us, rfl, -⟩ := h.head
  simp

/-! ### Expressions without nesting -/

/-- The fields and subscripts after a primary, first to last. -/
inductive Suffixes : List Token → Prop
  | nil : Suffixes []
  | field {dot name : Token} {ts : List Token} :
    dot.lexeme = .operator .dot → NameToken name → Suffixes ts → Suffixes (dot :: name :: ts)
  | index {l r : Token} {us ts : List Token} {e : Expr} :
    l.lexeme = .mark .leftBracket → Expression us e → r.lexeme = .mark .rightBracket → Suffixes ts →
    Suffixes (l :: us ++ r :: ts)

theorem Suffixes.append {ts us : List Token} (h : Suffixes ts) (h' : Suffixes us) : Suffixes (ts ++ us) := by
  induction h with
  | nil => exact h'
  | field hdot hname _ ih => exact .field hdot hname ih
  | index hl he hr _ ih => simpa using Suffixes.index hl he hr ih

theorem isAssignable_access {id : Nat} {e right : Expr} {dot : Token}
    (h : dot.lexeme = .operator .dot) : (Expr.binary id e dot right).isAssignable = e.isAssignable := by
  simp [Expr.isAssignable, Expr.root?, Expr.isAccess, h]

theorem isAssignable_index {id : Nat} {e i : Expr} {l : Token} :
    (Expr.index id e l i).isAssignable = e.isAssignable := by
  simp [Expr.isAssignable, Expr.root?]

theorem isAssignable_joined {id : Nat} {left right : Expr} {op : Token} (h : BinaryToken op) :
    (Expr.binary id left op right).isAssignable = false := by
  have hop : Expr.isAccess op = false := by
    rw [Expr.isAccess, beq_eq_false_iff_ne]
    intro hd
    simp [BinaryToken, hd, Lexeme.level?, Operator.level?] at h
  simp [Expr.isAssignable, Expr.root?, hop]

theorem Grammar.Suffixed.trail {ts : List Token} {e : Expr} :
    Suffixed ts e → ∃ first rest e', ts = first ++ rest ∧ Primary first e' ∧ Suffixes rest ∧
      e.isAssignable = e'.isAssignable
  | .primary h => ⟨ts, [], e, by simp, h, .nil, rfl⟩
  | .field _ _ h hdot hname => by
    obtain ⟨first, rest, e', rfl, hfirst, hrest, he⟩ := trail h
    refine ⟨first, _, e', List.append_assoc _ _ _, hfirst, hrest.append (.field hdot hname .nil), ?_⟩
    rw [isAssignable_access hdot, he]
  | .index _ h hl hi hr => by
    obtain ⟨first, rest, e', rfl, hfirst, hrest, he⟩ := trail h
    refine ⟨first, rest ++ (_ :: _ ++ _ :: []), e', ?_, hfirst,
      hrest.append (.index hl hi hr .nil), ?_⟩
    · simp
    · rw [isAssignable_index, he]

theorem Suffixes.lacks_leftParen {rest follow : List Token} (h : Suffixes rest)
    (hf : Lacks (.mark .leftParen) follow) : Lacks (.mark .leftParen) (rest ++ follow) := by
  cases h with
  | nil => exact hf
  | field hdot => exact .of_lexeme hdot rfl
  | index hl => exact .of_lexeme hl rfl

/-- Operators with their right operands, `n` of them, first to last. -/
inductive Chain : Nat → List Token → Prop
  | nil : Chain 0 []
  | cons {op : Token} {us ts : List Token} {e : Expr} {n : Nat} :
    BinaryToken op → Operand us e → Chain n ts → Chain (n + 1) (op :: us ++ ts)

theorem Chain.append {n m : Nat} {ts us : List Token} (h : Chain n ts) (h' : Chain m us) :
    Chain (n + m) (ts ++ us) := by
  induction h with
  | nil => simpa using h'
  | @cons op vs ts e n hop ho _ ih =>
    have hlong := Chain.cons hop ho ih
    rwa [Nat.add_right_comm, List.append_assoc]

theorem Chain.loose {k : Nat} {ts follow : List Token} (h : Chain k ts) (hf : Loose follow) :
    Loose (ts ++ follow) := by
  cases h with
  | nil => exact hf
  | cons hop => exact .binary hop

theorem Chain.length_le {k : Nat} {ts : List Token} (h : Chain k ts) : k ≤ ts.length := by
  induction h with
  | nil => simp
  | cons _ _ _ ih =>
    simp only [List.cons_append, List.length_cons, List.length_append]
    omega

theorem Grammar.Expression.chain {ts : List Token} {e : Expr} :
    Expression ts e → ∃ n first rest e', ts = first ++ rest ∧ Operand first e' ∧ Chain n rest ∧
      (n = 0 ∧ e = e' ∨ 0 < n ∧ e.isAssignable = false)
  | .operand h => ⟨0, ts, [], e, by simp, h, .nil, .inl ⟨rfl, rfl⟩⟩
  | .joined _ h hop h' => by
    obtain ⟨n, first, rest, e', rfl, hfirst, hrest, -⟩ := chain h
    obtain ⟨m, first', rest', e'', rfl, hfirst', hrest', -⟩ := chain h'
    refine ⟨n + (m + 1), first, rest ++ (_ :: first' ++ rest'), e', by simp, hfirst,
      hrest.append (.cons hop hfirst' hrest'), .inr ⟨by omega, isAssignable_joined hop⟩⟩

/-! ### Expressions -/

/-- An expression was read that can be assigned to exactly if `e` can. -/
def Alike (e : Expr) (o : Option Expr) : Prop :=
  ∃ e', o = some e' ∧ e'.isAssignable = e.isAssignable

/-- The reader reads all expressions of at most `n` tokens, and nothing where none starts. -/
structure ReadsExpressions (sub : Reader (Option Expr)) (n : Nat) : Prop where
  accepts : ∀ {ts follow : List Token} {e : Expr}, Expression ts e → ts.length ≤ n → Stops follow →
    Accepts sub ts follow (Alike e)
  declines : ∀ {ts : List Token}, (∀ t ∈ ts.head?, ¬ OpensExpr t) → Declines sub ts

namespace Expr

variable {sub : Reader (Option Expr)} {n : Nat} {ts follow : List Token} {e : Expr}

theorem accepts_required (hs : ReadsExpressions sub n) (h : Expression ts e) (hn : ts.length ≤ n)
    (hf : Stops follow) (after : Token) :
    Accepts (required sub after) ts follow fun e' => e'.isAssignable = e.isAssignable := by
  refine (hs.accepts h hn hf).last fun o ho => ?_
  obtain ⟨e', rfl, he⟩ := ho
  exact .pure he

theorem accepts_arguments (hs : ReadsExpressions sub n) {args : List Expr} (h : Arguments ts args)
    (hn : ts.length ≤ n) {m : Nat} (hm : ts.length ≤ m) {r : Token} {follow : List Token}
    (hr : r.lexeme = .mark .rightParen) :
    Accepts (arguments sub m) ts (r :: follow) fun _ => True := by
  have hstops : Stops (r :: follow) := .mark hr (by simp) (by simp)
  induction m generalizing ts args with
  | zero =>
    obtain rfl := List.length_eq_zero_iff.mp (Nat.le_zero.mp hm)
    exact .pure trivial
  | succ m ih =>
    cases h with
    | nil =>
      refine .skip (hs.declines ?_) (.pure trivial)
      simp [OpensExpr, LiteralToken, NameToken, UnaryToken, hr]
    | last he =>
      refine (hs.accepts he hn hstops).last fun o ho => ?_
      obtain ⟨e', rfl, -⟩ := ho
      exact .skip (declines_accept (.of_lexeme hr rfl)) (.pure trivial)
    | @cons comma ts us e args he hcomma hargs =>
      have hpos := he.length_pos
      simp only [List.length_append, List.length_cons] at hn hm
      have hnext : Stops (comma :: us ++ r :: follow) := .mark hcomma (by simp) (by simp)
      refine Accepts.bind (hs.accepts he (by omega) hnext) fun o ho => ?_
      obtain ⟨e', rfl, -⟩ := ho
      refine .accept (is_mark.mpr hcomma) ((ih hargs (by omega) (by omega)).last fun es _ => ?_)
      exact .pure trivial

/-- A literal is read as itself. -/
theorem accepts_literal {t : Token} (ht : LiteralToken t) :
    Accepts (primary sub) [t] follow fun o => ∃ id, o = some (.literal id t) := by
  have hnot : t.is (.mark .leftParen) = false ∧ t.is (.name "") = false := by
    rcases ht with ⟨v, ht⟩ | ⟨v, ht⟩ <;> simp [Token.is, ht, Lexeme.sameKind]
  refine .skip (declines_accept (.cons hnot.1)) (.get fun c hc => ?_)
  rw [if_neg (by simp [Cursor.seesAll, Cursor.seesAll.agree, hc, hnot.2])]
  refine .acceptAny ?_ (.newId fun id => .pure ⟨id, rfl⟩)
  simpa [LiteralToken, is_integer, is_text] using ht

/-- A name that is not called is read as itself. -/
theorem accepts_ident {t : Token} (ht : NameToken t) (hf : Lacks (.mark .leftParen) follow) :
    Accepts (primary sub) [t] follow fun o => ∃ id, o = some (.ident id t) := by
  obtain ⟨x, hx⟩ := ht
  refine .skip (declines_accept (.of_lexeme hx rfl)) (.get fun c hc => ?_)
  have hcall : c.seesAll [.name "", .mark .leftParen] = false := by
    cases follow with
    | nil => simp [Cursor.seesAll, Cursor.seesAll.agree, hc]
    | cons u follow =>
      have hu : u.is (.mark .leftParen) = false := hf u rfl
      simp [Cursor.seesAll, Cursor.seesAll.agree, hc, hu]
  rw [if_neg (by simp [hcall])]
  refine .skip (declines_nextIf (by simp [Token.is, hx, Lexeme.sameKind])) ?_
  exact .accept (is_name.mpr ⟨x, hx⟩) (.newId fun id => .pure ⟨id, rfl⟩)

/-- A call is read with the arguments that are read in it. -/
theorem accepts_call {callee l r : Token} {P : List Expr → Prop} (hc : NameToken callee)
    (hl : l.lexeme = .mark .leftParen)
    (h : ∀ m, ts.length ≤ m → Accepts (arguments sub m) ts (r :: follow) P)
    (hr : r.lexeme = .mark .rightParen) :
    Accepts (primary sub) (callee :: l :: ts ++ [r]) follow fun o =>
      ∃ id args, o = some (.call id callee args) ∧ P args := by
  obtain ⟨x, hx⟩ := hc
  refine .skip (declines_accept (.of_lexeme hx rfl)) (.get fun c hrest => ?_)
  have hcall : c.seesAll [.name "", .mark .leftParen] = true := by
    simp [Cursor.seesAll, Cursor.seesAll.agree, hrest, Token.is, hl, hx, Lexeme.sameKind]
  rw [if_pos hcall]
  refine .accept (is_name.mpr ⟨x, hx⟩) (.require (is_mark.mpr hl) (.get fun c hrest => ?_))
  have hm : ts.length ≤ c.rest.length := by simp [hrest]
  refine Accepts.bind (h _ hm) fun args hargs => ?_
  exact .require (is_mark.mpr hr) (.newId fun id => .pure ⟨id, args, rfl, hargs⟩)

/-- Parentheses are read as what stands in them. -/
theorem accepts_paren {l r : Token} {P : Expr → Prop} (hl : l.lexeme = .mark .leftParen)
    (h : Accepts (required sub l) ts (r :: follow) P) (hr : r.lexeme = .mark .rightParen) :
    Accepts (primary sub) (l :: ts ++ [r]) follow fun o => ∃ e, o = some e ∧ P e := by
  refine .accept (is_mark.mpr hl) (Accepts.bind h fun e he => ?_)
  exact .require (is_mark.mpr hr) (.pure ⟨e, rfl, he⟩)

theorem accepts_primary (hs : ReadsExpressions sub n) (h : Primary ts e) (hn : ts.length ≤ n + 1)
    (hf : Lacks (.mark .leftParen) follow) : Accepts (primary sub) ts follow (Alike e) := by
  cases h with
  | literal id ht =>
    apply (accepts_literal ht).mono
    rintro o ⟨id', rfl⟩
    exact ⟨_, rfl, rfl⟩
  | name id ht =>
    apply (accepts_ident ht hf).mono
    rintro o ⟨id', rfl⟩
    exact ⟨_, rfl, rfl⟩
  | @call callee l r ts args id hcallee hl hargs hr =>
    simp only [List.length_cons, List.length_append] at hn
    have hread : ∀ m, ts.length ≤ m → Accepts (arguments sub m) ts (r :: follow) fun _ => True :=
      fun m hm => accepts_arguments hs hargs (by omega) hm hr
    apply (accepts_call hcallee hl hread hr).mono
    rintro o ⟨id', args', rfl, -⟩
    exact ⟨_, rfl, rfl⟩
  | @paren l r ts e hl he hr =>
    simp only [List.length_cons, List.length_append] at hn
    have hstops : Stops (r :: follow) := .mark hr (by simp) (by simp)
    exact accepts_paren hl (accepts_required hs he (by omega) hstops l) hr

theorem accepts_suffixes (hs : ReadsExpressions sub n) (h : Suffixes ts) (hn : ts.length ≤ n + 1)
    {m : Nat} (hm : ts.length ≤ m) (hf : Loose follow) (e : Expr) :
    Accepts (suffixes sub m e) ts follow fun e' => e'.isAssignable = e.isAssignable := by
  induction h generalizing m e with
  | nil =>
    cases m with
    | zero => exact .pure rfl
    | succ m => exact .skip (declines_accept hf.1) (.skip (declines_accept hf.2.1) (.pure rfl))
  | @field dot name ts hdot hname _ ih =>
    obtain _ | m := m
    · simp at hm
    simp only [List.length_cons] at hn hm
    refine .accept (is_operator.mpr hdot) (.accept (is_name.mpr hname) ?_)
    refine .newId fun id => .newId fun id' => ?_
    refine (ih (by omega) (by omega) _).mono fun e' he' => ?_
    rw [he', isAssignable_access hdot]
  | @index l r us ts i hl hi hr _ ih =>
    obtain _ | m := m
    · simp at hm
    simp only [List.length_cons, List.length_append] at hn hm
    refine .skip (declines_accept (.of_lexeme hl rfl)) ?_
    refine .accept (is_mark.mpr hl) ?_
    have hstops : Stops (r :: ts ++ follow) := .mark hr (by simp) (by simp)
    refine Accepts.bind (accepts_required hs hi (by omega) hstops l) fun i' _ => ?_
    refine .require (is_mark.mpr hr) (.newId fun id => ?_)
    refine (ih (by omega) (by omega) _).mono fun e' he' => ?_
    rw [he', isAssignable_index]

theorem accepts_suffixed (hs : ReadsExpressions sub n) (h : Suffixed ts e) (hn : ts.length ≤ n + 1)
    (hf : Loose follow) : Accepts (suffixed sub) ts follow (Alike e) := by
  obtain ⟨first, rest, e₀, rfl, hfirst, hrest, he⟩ := h.trail
  rw [List.length_append] at hn
  have hfollow := Suffixes.lacks_leftParen hrest hf.2.2
  refine Accepts.bind (accepts_primary hs hfirst (by omega) hfollow) fun o ho => ?_
  obtain ⟨e₁, rfl, he₁⟩ := ho
  refine .get fun c hc => ?_
  have hm : rest.length ≤ c.rest.length := by simp [hc]
  refine (accepts_suffixes hs hrest (by omega) hm hf e₁).last fun e₂ he₂ => .pure ⟨e₂, rfl, ?_⟩
  rw [he₂, he₁, he]

theorem accepts_applyUnary {op : Token} (operand : Expr) :
    Accepts (applyUnary op operand) [] follow fun e => e.isAssignable = false := by
  unfold applyUnary
  split
  · exact .pure rfl
  · exact .newId fun id => .pure rfl

theorem accepts_unaryOf (hs : ReadsExpressions sub n) (h : Operand ts e) (hn : ts.length ≤ n + 1)
    {m : Nat} (hm : ts.length ≤ m) (hf : Loose follow) :
    Accepts (unaryOf sub m) ts follow (Alike e) := by
  -- Both ways to apply an operator give something that cannot be assigned to.
  have happlied : ∀ {m : Nat} {op : Token} {ts : List Token} {e e₀ : Expr}, UnaryToken op →
      Accepts (unaryOf sub m) ts follow (Alike e₀) → e.isAssignable = false →
      Accepts (unaryOf sub (m + 1)) (op :: ts) follow (Alike e) := by
    intro m op ts e e₀ hop hoperand he
    refine .acceptAny (by simpa [UnaryToken, is_operator] using hop) (hoperand.last fun o ho => ?_)
    obtain ⟨e₁, rfl, -⟩ := ho
    exact (accepts_applyUnary e₁).last fun e₂ he₂ => .pure ⟨e₂, rfl, he₂.trans he.symm⟩
  induction m generalizing ts e with
  | zero =>
    obtain ⟨t, us, rfl, -⟩ := h.head
    simp at hm
  | succ m ih =>
    cases h with
    | suffixed h =>
      obtain ⟨t, us, rfl, ht⟩ := h.head
      refine .skip (declines_nextIf ?_) (accepts_suffixed hs h hn hf)
      rcases ht with ht | (⟨_, ht⟩ | ⟨_, ht⟩) | ⟨_, ht⟩ <;> simp [Token.is, ht, Lexeme.sameKind]
    | negated hop h =>
      simp only [List.length_cons] at hn hm
      exact happlied (.inl hop) (ih h (by omega) (by omega)) rfl
    | applied id hop h =>
      simp only [List.length_cons] at hn hm
      exact happlied hop (ih h (by omega) (by omega)) rfl

theorem accepts_operandOf (hs : ReadsExpressions sub n) (h : Operand ts e) (hn : ts.length ≤ n + 1)
    (hf : Loose follow) : Accepts (operandOf sub) ts follow (Alike e) :=
  .get fun c hc => accepts_unaryOf hs h hn (by simp [hc]) hf

theorem declines_operandOf (h : ∀ t ∈ ts.head?, ¬ OpensExpr t) : Declines (operandOf sub) ts := by
  have hlacks : ∀ l : Lexeme, (∀ t, t.is l = true → OpensExpr t) → Lacks l ts := fun l hl t ht => by
    rw [Bool.eq_false_iff]
    exact fun his => h t ht (hl t his)
  have hname : Lacks (.name "") ts := hlacks _ fun t ht => .inr (.inr (.inl (is_name.mp ht)))
  have hprimary : Declines (primary sub) ts := by
    refine .bind (declines_accept (hlacks _ fun t ht => .inl (is_mark.mp ht))) (.get fun c hc => ?_)
    have hcall : c.seesAll [.name "", .mark .leftParen] = false := by
      cases hts : ts with
      | nil => simp [Cursor.seesAll, Cursor.seesAll.agree, hc, hts]
      | cons t us => simp [Cursor.seesAll, Cursor.seesAll.agree, hc, hts, hname t (by simp [hts])]
    rw [if_neg (by simp [hcall])]
    refine .bind (declines_nextIf fun t ht => ?_) (.bind (declines_accept hname) .pure)
    have hinteger := hlacks (.integer 0) (fun t ht => .inr (.inl (.inl (is_integer.mp ht)))) t ht
    have htext := hlacks (.text "") (fun t ht => .inr (.inl (.inr (is_text.mp ht)))) t ht
    simp [hinteger, htext]
  have hsuffixed : Declines (suffixed sub) ts := .bind hprimary .pure
  refine .get fun c _ => ?_
  cases c.rest.length with
  | zero => exact hsuffixed
  | succ m =>
    refine .bind (declines_nextIf fun t ht => ?_) hsuffixed
    have hunary : ∀ op : Operator, (t.lexeme = .operator op → UnaryToken t) →
        t.is (.operator op) = false := fun op hop => by
      rw [Bool.eq_false_iff]
      exact fun his => h t ht (.inr (.inr (.inr (hop (is_operator.mp his)))))
    simp [hunary .minus .inl, hunary .not fun h => .inr (.inl h), hunary .bitNot fun h => .inr (.inr h)]

/-- What a climb leaves of a chain: it stops before the first operator that binds too loosely. -/
def Climbed (k least : Nat) (ts follow : List Token) (left e : Expr) (c : Cursor) : Prop :=
  ∃ k' us, c.rest = us ++ follow ∧ Chain k' us ∧ us.length ≤ ts.length ∧
    (∀ t ∈ us.head?, bindsFrom least t = false) ∧
    (k' = k ∧ e = left ∨ k' < k ∧ e.isAssignable = false)

theorem ends_climb {operand : Reader (Option Expr)}
    (ho : ∀ {us follow : List Token} {e : Expr}, Operand us e → us.length ≤ n → Loose follow →
      Accepts operand us follow (Alike e))
    {k m least : Nat} (h : Chain k ts) (hn : ts.length ≤ n) (hm : k ≤ m) (hf : Stops follow)
    (left : Expr) {c : Cursor} (hc : c.rest = ts ++ follow) :
    Ends (climb operand m least left) c
      (fun e c' => Climbed k least ts follow left e c') (fun _ _ => False) := by
  induction m generalizing k ts least left c with
  | zero =>
    obtain rfl := Nat.le_zero.mp hm
    cases h
    exact Ends.pure ⟨0, [], hc, .nil, Nat.le_refl _, by simp, .inl ⟨rfl, rfl⟩⟩
  | succ m ih =>
    -- Where the next token is no operator of the level, the climb ends here.
    have hstay : (∀ t ∈ (ts ++ follow).head?, bindsFrom least t = false) →
        Ends (climb operand (m + 1) least left) c
          (fun e c' => Climbed k least ts follow left e c') (fun _ _ => False) := by
      intro hhead
      refine Ends.bind ?_
      unfold Ends
      rw [declines_nextIf hhead c hc]
      refine ⟨k, ts, hc, h, Nat.le_refl _, fun t ht => hhead t ?_, .inl ⟨rfl, rfl⟩⟩
      cases ts with
      | nil => cases ht
      | cons u us => exact ht
    cases h with
    | nil =>
      refine hstay fun t ht => ?_
      rw [Bool.eq_false_iff]
      exact fun hb => hf.2 t ht (binaryToken_of_bindsFrom hb)
    | @cons op us rest e₀ k hop hoperand hrest =>
      by_cases hb : bindsFrom least op = true
      · simp only [List.cons_append, List.length_cons, List.length_append] at hn
        refine Ends.bind ?_
        unfold Ends
        rw [nextIf?_of_pass hc hb]
        have hc₁ : us ++ rest ++ follow = us ++ (rest ++ follow) := List.append_assoc _ _ _
        refine Ends.seq (ho hoperand (by omega) (hrest.loose hf.1) _ hc₁) (fun _ _ h => h) ?_
        rintro o c₂ ⟨hc₂, first, rfl, -⟩
        refine Ends.seq (ih hrest (by omega) (by omega) first hc₂) (fun _ _ h => h) ?_
        rintro right c₃ ⟨k', us', hc₃, hchain, hlen, -, hk⟩
        have hk' : k' ≤ k := by omega
        refine Ends.bind ?_
        change Ends (climb operand m least (.binary c₃.nextId left op right))
          { c₃ with nextId := c₃.nextId + 1 } _ _
        refine Ends.mono (ih hchain (by omega) (by omega) _ ?_) ?_ (fun _ _ h => h)
        · exact hc₃
        rintro e c₄ ⟨k'', us'', hc₄, hchain', hlen', hhead, hk''⟩
        refine ⟨k'', us'', hc₄, hchain', ?_, hhead, .inr ?_⟩
        · simp only [List.cons_append, List.length_cons, List.length_append]
          omega
        · rcases hk'' with ⟨rfl, rfl⟩ | ⟨hlt, he⟩
          · exact ⟨by omega, isAssignable_joined hop⟩
          · exact ⟨by omega, he⟩
      · refine hstay fun t ht => ?_
        obtain rfl : op = t := by simpa using ht
        exact Bool.eq_false_iff.mpr hb

/-- All binary operators are of level one and above. -/
theorem bindsFrom_one {op : Token} (h : BinaryToken op) : bindsFrom 1 op = true := by
  unfold BinaryToken at h
  unfold bindsFrom
  cases hl : op.lexeme with
  | operator o => cases o <;> simp_all [Lexeme.level?, Operator.level?]
  | _ => simp [hl, Lexeme.level?] at h

theorem accepts_binaryOf (hs : ReadsExpressions sub n) (h : Expression ts e)
    (hn : ts.length ≤ n + 1) (hf : Stops follow) : Accepts (binaryOf sub 1) ts follow (Alike e) := by
  obtain ⟨k, first, rest, e₀, rfl, hfirst, hrest, he⟩ := h.chain
  rw [List.length_append] at hn
  refine Accepts.bind (accepts_operandOf hs hfirst (by omega) (hrest.loose hf.1)) fun o ho => ?_
  obtain ⟨e₁, rfl, he₁⟩ := ho
  refine .get fun c hc => ?_
  have hm : k ≤ c.rest.length := by
    have hk := hrest.length_le
    rw [hc, List.length_append]
    omega
  have hclimb : Accepts (climb (operandOf sub) c.rest.length 1 e₁) rest follow
      fun e₂ => e₂.isAssignable = e.isAssignable := by
    intro c₁ hc₁
    refine (ends_climb (n := n + 1) (accepts_operandOf hs) hrest (by omega) hm hf e₁ hc₁).mono ?_
      (fun _ _ h => h)
    rintro e₂ c₂ ⟨k', us, hc₂, hus, -, hhead, hk⟩
    -- Nothing is left: every operator that could come first would have been taken.
    cases hus with
    | cons hop => exact absurd (hhead _ rfl) (by simp [bindsFrom_one hop])
    | nil =>
      refine ⟨hc₂, ?_⟩
      rcases he with ⟨rfl, rfl⟩ | ⟨hpos, he⟩
      · rcases hk with ⟨-, rfl⟩ | ⟨hlt, -⟩
        · exact he₁
        · omega
      · rcases hk with ⟨hk, -⟩ | ⟨-, he₂⟩
        · omega
        · rw [he₂, he]
  exact hclimb.last fun e₂ he₂ => .pure ⟨e₂, rfl, he₂⟩

theorem readsExpressions_nested (depth : Nat) : ReadsExpressions (nested depth) depth := by
  induction depth with
  | zero =>
    refine ⟨fun h hn _ => ?_, fun _ => .pure⟩
    have hpos := h.length_pos
    omega
  | succ depth ih =>
    exact ⟨fun h hn hf => accepts_binaryOf ih h hn hf, fun h => .bind (declines_operandOf h) .pure⟩

theorem accepts_read? (h : Expression ts e) (hf : Stops follow) :
    Accepts read? ts follow (Alike e) :=
  .get fun c hc => (readsExpressions_nested _).accepts h (by simp [hc]) hf

theorem declines_read? (h : ∀ t ∈ ts.head?, ¬ OpensExpr t) : Declines read? ts :=
  .get fun _ _ => (readsExpressions_nested _).declines h

theorem accepts_readAfter (h : Expression ts e) (hf : Stops follow) (after : Token) :
    Accepts (readAfter after) ts follow fun e' => e'.isAssignable = e.isAssignable := by
  refine (accepts_read? h hf).last fun o ho => ?_
  obtain ⟨e', rfl, he⟩ := ho
  exact .pure he

end Expr

end StoragePlan
