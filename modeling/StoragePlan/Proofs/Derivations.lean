import StoragePlan.Proofs.Ends
import StoragePlan.Proofs.Grammar

/-!
What the readers read is in the grammar. `Derives` follows a reader along the tokens it takes, which
may be any tokens; there is one lemma for each reader, in the order of the grammar, and a reader that
takes the reader of nested parts as an argument is right if that one is.
-/

namespace StoragePlan

open Reader Grammar

/-- The reader takes some tokens, in order, and what it answers goes with them. -/
def Derives {α : Type} (x : Reader α) (P : List Token → α → Prop) : Prop :=
  ∀ c : Cursor, Ends x c (fun a c' => ∃ read, c.rest = read ++ c'.rest ∧ P read a) (fun _ _ => True)

/-- Where nothing is answered no token is taken. -/
def Optional {α : Type} (P : List Token → α → Prop) (read : List Token) : Option α → Prop
  | none => read = []
  | some a => P read a

namespace Derives

variable {α β : Type} {x : Reader α} {f : α → Reader β} {P P' : List Token → α → Prop}
  {Q : List Token → β → Prop}

theorem pure {a : α} (h : P [] a) : Derives (Pure.pure a) P := fun _ => Ends.pure ⟨[], rfl, h⟩

theorem throw (e : ParseFault) : Derives (MonadExcept.throw e) P := fun _ => Ends.throw trivial

theorem fail (p : Position) (e : ParseError) : Derives (Reader.fail p e) P := throw _

theorem mono (h : Derives x P) (hp : ∀ read a, P read a → P' read a) : Derives x P' := fun c =>
  (h c).mono (fun a _ ⟨read, hr, ha⟩ => ⟨read, hr, hp read a ha⟩) (fun _ _ h => h)

theorem bind (hx : Derives x P)
    (hf : ∀ a read, P read a → Derives (f a) fun more b => Q (read ++ more) b) :
    Derives (x >>= f) Q := by
  intro c
  refine (hx c).seq (fun _ _ h => h) ?_
  rintro a c' ⟨read, hr, ha⟩
  refine (hf a read ha c').mono ?_ (fun _ _ h => h)
  rintro b c'' ⟨more, hm, hb⟩
  exact ⟨read ++ more, by rw [hr, hm, List.append_assoc], hb⟩

theorem map {g : α → β} (hx : Derives x P) (hg : ∀ read a, P read a → Q read (g a)) :
    Derives (g <$> x) Q := fun c =>
  Ends.map ((hx c).mono (fun a _ ⟨read, hr, ha⟩ => ⟨read, hr, hg read a ha⟩) (fun _ _ h => h))

/-- A look at the cursor takes no token. -/
theorem get {f : Cursor → Reader β} (hf : ∀ c, Derives (f c) Q) :
    Derives (MonadState.get >>= f) Q :=
  fun c => Ends.bind (Ends.get (hf c c))

/-- A step that may find nothing. -/
theorem optional {x : Reader (Option α)} {f : Option α → Reader β} (hx : Derives x (Optional P))
    (hnone : Derives (f none) Q)
    (hsome : ∀ a read, P read a → Derives (f (some a)) fun more b => Q (read ++ more) b) :
    Derives (x >>= f) Q := by
  refine hx.bind fun o read h => ?_
  cases o with
  | none =>
    obtain rfl := h
    exact hnone
  | some a => exact hsome a read h

/-- A token is taken if it passes a test. -/
theorem nextIf {test : Token → Bool} {f : Option Token → Reader β} (hnone : Derives (f none) Q)
    (hsome : ∀ t, test t = true → Derives (f (some t)) fun more b => Q (t :: more) b) :
    Derives (nextIf? test >>= f) Q := by
  have hnext : Derives (nextIf? test) (Optional fun read t => read = [t] ∧ test t = true) := by
    intro c
    unfold Ends nextIf?
    cases hc : c.rest with
    | nil => exact ⟨[], hc.symm, rfl⟩
    | cons t rest =>
      by_cases ht : test t = true
      · simp only [ht, if_true]
        exact ⟨[t], rfl, rfl, ht⟩
      · simp only [ht]
        exact ⟨[], by simp [hc], rfl⟩
  refine hnext.optional hnone fun t read h => ?_
  obtain ⟨rfl, ht⟩ := h
  exact hsome t ht

theorem accept {l : Lexeme} {f : Option Token → Reader β} (hnone : Derives (f none) Q)
    (hsome : ∀ t, t.is l = true → Derives (f (some t)) fun more b => Q (t :: more) b) :
    Derives (accept? l >>= f) Q :=
  nextIf hnone hsome

theorem acceptAny {set : List Lexeme} {f : Option Token → Reader β} (hnone : Derives (f none) Q)
    (hsome : ∀ t, (∃ l ∈ set, t.is l = true) →
      Derives (f (some t)) fun more b => Q (t :: more) b) :
    Derives (acceptAny? set >>= f) Q :=
  nextIf hnone fun t ht => hsome t (by simpa using ht)

/-- A token that has to stand here is taken. -/
theorem require {l : Lexeme} {f : Token → Reader β}
    (hf : ∀ t, t.is l = true → Derives (f t) fun more b => Q (t :: more) b) :
    Derives (Reader.require l >>= f) Q := by
  have hrequire : Derives (Reader.require l) fun read t => read = [t] ∧ t.is l = true :=
    accept (get fun c => throw _) fun t ht => pure ⟨rfl, ht⟩
  refine hrequire.bind fun t read h => ?_
  obtain ⟨rfl, ht⟩ := h
  exact hf t ht

theorem pureBind {a : α} (h : Derives (f a) Q) : Derives (Pure.pure a >>= f) Q := h

/-- An optional part that is there. -/
theorem someBind {f : Option α → Reader β} (hx : Derives x P)
    (hf : ∀ a read, P read a → Derives (f (some a)) fun more b => Q (read ++ more) b) :
    Derives (some <$> x >>= f) Q := by
  have hsome : Derives (some <$> x) fun read o => ∃ a, o = some a ∧ P read a :=
    hx.map fun read a h => ⟨a, rfl, h⟩
  refine hsome.bind fun o read h => ?_
  obtain ⟨a, rfl, h⟩ := h
  exact hf a read h

/-- The number of a new node costs no token. -/
theorem newId {f : Nat → Reader β} (hf : ∀ id, Derives (f id) Q) : Derives (Reader.newId >>= f) Q := by
  have hnew : Derives Reader.newId fun read _ => read = [] := fun _ => ⟨[], rfl, rfl⟩
  refine hnew.bind fun id read h => ?_
  obtain rfl := h
  exact hf id

end Derives

/-! ### Tokens -/

/-- Integers, texts, names and built-in types are of one kind each; any other lexeme is of its own. -/
theorem sameKind_iff {l k : Lexeme} : l.sameKind k = true ↔ l = k ∨
    (∃ v w, l = .integer v ∧ k = .integer w) ∨ (∃ s s', l = .text s ∧ k = .text s') ∨
    (∃ id id', l = .name id ∧ k = .name id') ∨ ∃ p q, l = .primitive p ∧ k = .primitive q := by
  cases l <;> cases k <;> simp [Lexeme.sameKind]

theorem is_mark {t : Token} {m : Mark} : t.is (.mark m) = true ↔ t.lexeme = .mark m := by
  simp [Token.is, sameKind_iff]

theorem is_keyword {t : Token} {k : Keyword} : t.is (.keyword k) = true ↔ t.lexeme = .keyword k := by
  simp [Token.is, sameKind_iff]

theorem is_operator {t : Token} {op : Operator} :
    t.is (.operator op) = true ↔ t.lexeme = .operator op := by
  simp [Token.is, sameKind_iff]

theorem is_name {t : Token} {id : String} : t.is (.name id) = true ↔ NameToken t := by
  simpa [Token.is, sameKind_iff, NameToken] using fun h => ⟨id, h⟩

theorem is_integer {t : Token} {v : Int} : t.is (.integer v) = true ↔ ∃ w, t.lexeme = .integer w := by
  simpa [Token.is, sameKind_iff] using fun h => ⟨v, h⟩

theorem is_text {t : Token} {s : String} : t.is (.text s) = true ↔ ∃ s', t.lexeme = .text s' := by
  simpa [Token.is, sameKind_iff] using fun h => ⟨s, h⟩

theorem is_primitive {t : Token} {p : Primitive} :
    t.is (.primitive p) = true ↔ ∃ q, t.lexeme = .primitive q := by
  simpa [Token.is, sameKind_iff] using fun h => ⟨p, h⟩

/-! ### Expressions -/

namespace Expr

variable {sub : Reader (Option Expr)}

theorem derives_required (hs : Derives sub (Optional Expression)) (after : Token) :
    Derives (required sub after) Expression :=
  hs.optional (.get fun c => .fail _ _) fun e read h => .pure (by simpa using h)

theorem derives_arguments (hs : Derives sub (Optional Expression)) (n : Nat) :
    Derives (arguments sub n) Arguments := by
  induction n with
  | zero => exact .pure .nil
  | succ n ih =>
    refine hs.optional (.pure .nil) fun e ts he => ?_
    refine .accept (.pure (by simpa using Arguments.last he)) fun comma hcomma => ?_
    refine ih.bind fun es us hes => .pure ?_
    simpa using Arguments.cons he (is_mark.mp hcomma) hes

theorem derives_callOf (hs : Derives sub (Optional Expression)) :
    Derives (callOf sub) (Optional Primary) := by
  refine .accept (.pure rfl) fun callee hcallee => .require fun l hl => .get fun c => ?_
  refine (derives_arguments hs _).bind fun args ts hargs => .require fun r hr => ?_
  refine .newId fun id => .pure ?_
  simpa [Optional] using
    Primary.call id (is_name.mp hcallee) (is_mark.mp hl) hargs (is_mark.mp hr)

theorem derives_primary (hs : Derives sub (Optional Expression)) :
    Derives (primary sub) (Optional Primary) := by
  refine .accept ?_ fun l hl => ?_
  · refine .get fun c => ?_
    split
    · exact derives_callOf hs
    · refine .acceptAny ?_ fun t ht => .newId fun id => .pure (Primary.literal id ?_)
      · exact .accept (.pure rfl) fun t ht =>
          .newId fun id => .pure (Primary.name id (is_name.mp ht))
      · simpa [LiteralToken, is_integer, is_text] using ht
  · refine (derives_required hs l).bind fun e ts he => .require fun r hr => .pure ?_
    simpa [Optional] using Primary.paren (is_mark.mp hl) he (is_mark.mp hr)

/-- The suffixes that are read belong to what was read before them. -/
theorem derives_suffixes (hs : Derives sub (Optional Expression)) (n : Nat) {ts : List Token}
    {e : Expr} (he : Suffixed ts e) :
    Derives (suffixes sub n e) fun read e' => Suffixed (ts ++ read) e' := by
  induction n generalizing ts e with
  | zero => exact .pure (by simpa using he)
  | succ n ih =>
    refine .accept ?_ fun dot hdot => ?_
    · refine .accept (.pure (by simpa using he)) fun l hl => ?_
      refine (derives_required hs l).bind fun i us hi => .require fun r hr => .newId fun id => ?_
      refine (ih (.index id he (is_mark.mp hl) hi (is_mark.mp hr))).mono fun read e' h => ?_
      simpa using h
    · refine .accept (.fail _ _) fun name hname => .newId fun id => .newId fun id' => ?_
      refine (ih (.field id' id he (is_operator.mp hdot) (is_name.mp hname))).mono fun read e' h => ?_
      simpa using h

theorem derives_suffixed (hs : Derives sub (Optional Expression)) :
    Derives (suffixed sub) (Optional Suffixed) := by
  refine (derives_primary hs).optional (.pure rfl) fun e ts he => .get fun c => ?_
  exact (derives_suffixes hs _ (.primary he)).bind fun e' us he' =>
    .pure (by simpa [Optional] using he')

theorem derives_applyUnary {op : Token} {operand : Expr} {ts : List Token} (ho : UnaryToken op)
    (h : Operand ts operand) :
    Derives (applyUnary op operand) fun read e => Operand (op :: ts ++ read) e := by
  unfold applyUnary
  split
  · next id v p hop => exact .pure (by simpa using Operand.negated hop h)
  · next hne =>
    refine .newId fun id => .pure ?_
    rw [List.append_nil]
    refine .applied id ho h ?_
    rintro ⟨hop, id, v, p, heq⟩
    exact hne id v p hop heq

theorem derives_unaryOf (hs : Derives sub (Optional Expression)) (n : Nat) :
    Derives (unaryOf sub n) (Optional Operand) := by
  have hlast : Derives (suffixed sub) (Optional Operand) :=
    (derives_suffixed hs).mono fun read o h => by
      cases o with
      | none => exact h
      | some e => exact Operand.suffixed h
  induction n with
  | zero => exact hlast
  | succ n ih =>
    refine .acceptAny hlast fun op hop => ih.optional (.fail _ _) fun operand ts h => ?_
    have hunary : UnaryToken op := by simpa [UnaryToken, is_operator] using hop
    exact (derives_applyUnary hunary h).bind fun e us he => .pure (by simpa [Optional] using he)

theorem derives_operandOf (hs : Derives sub (Optional Expression)) :
    Derives (operandOf sub) (Optional Operand) := .get fun _ => derives_unaryOf hs _

theorem binaryToken_of_bindsFrom {least : Nat} {op : Token} (h : bindsFrom least op = true) :
    BinaryToken op := by
  unfold bindsFrom at h
  unfold BinaryToken
  cases hl : op.lexeme.level? <;> simp_all

theorem derives_climb {operand : Reader (Option Expr)} (ho : Derives operand (Optional Operand))
    (n least : Nat) {ts : List Token} {left : Expr} (hl : Expression ts left) :
    Derives (climb operand n least left) fun read e => Expression (ts ++ read) e := by
  induction n generalizing least ts left with
  | zero => exact .pure (by simpa using hl)
  | succ n ih =>
    refine .nextIf (.pure (by simpa using hl)) fun op hop => ?_
    refine ho.optional (.fail _ _) fun first us h => ?_
    refine (ih _ (.operand h)).bind fun right vs hr => .newId fun id => ?_
    have hjoined := Expression.joined id hl (binaryToken_of_bindsFrom hop) hr
    refine (ih least hjoined).mono fun read e he => ?_
    simpa using he

theorem derives_binaryOf (hs : Derives sub (Optional Expression)) (least : Nat) :
    Derives (binaryOf sub least) (Optional Expression) := by
  refine (derives_operandOf hs).optional (.pure rfl) fun first ts h => .get fun c => ?_
  refine (derives_climb (derives_operandOf hs) _ _ (.operand h)).bind fun e us he => .pure ?_
  simpa [Optional] using he

theorem derives_nested (depth : Nat) : Derives (nested depth) (Optional Expression) := by
  induction depth with
  | zero => exact .pure rfl
  | succ depth ih => exact derives_binaryOf ih 1

theorem derives_read? : Derives read? (Optional Expression) := .get fun _ => derives_nested _

theorem derives_readAfter (after : Token) : Derives (readAfter after) Expression :=
  derives_required derives_read? after

end Expr

/-! ### Declarations -/

namespace Annotation

theorem derives_dimensions (n : Nat) : Derives (dimensions n) Dimensions := by
  induction n with
  | zero => exact .pure .nil
  | succ n ih =>
    refine .accept (.pure .nil) fun l hl => .accept (.fail _ _) fun t ht => ?_
    obtain ⟨d, hd⟩ := is_integer.mp ht
    obtain ⟨lexeme, position⟩ := t
    obtain rfl := hd
    refine .require fun r hr => ih.bind fun ds ts hds => .pure ?_
    simpa using Dimensions.cons (n := ⟨.integer d, position⟩) (is_mark.mp hl) rfl (is_mark.mp hr) hds

theorem derives_read? : Derives read? (Optional TypeRef) := by
  refine .acceptAny (.pure rfl) fun name hname => .get fun c => ?_
  refine (derives_dimensions _).bind fun ds ts hds => .pure ?_
  have hkind : (∃ p, name.lexeme = .primitive p) ∨ NameToken name := by
    simpa [is_primitive, is_name] using hname
  simpa [Optional] using TypeRef.mk hkind hds

theorem derives_readAfter (after : Token) : Derives (readAfter after) TypeRef :=
  derives_read?.optional (.get fun c => .fail _ _) fun a ts h => .pure (by simpa using h)

/-- A name that was read and the annotation after it. -/
theorem derives_readAfterColon {name : Token} (hname : NameToken name) :
    Derives readAfterColon fun read a => Typed (name :: read) ⟨name, a⟩ :=
  .require fun colon hcolon =>
    (derives_readAfter colon).mono fun _ _ ha => .mk hname (is_mark.mp hcolon) ha

end Annotation

open Annotation (derives_readAfterColon derives_readAfter)

/-- A name that has to stand here is taken. -/
theorem Derives.name {β : Type} {f : Token → Reader β} {Q : List Token → β → Prop} {after : Token}
    (hf : ∀ t, NameToken t → Derives (f t) fun more b => Q (t :: more) b) :
    Derives (nameAfter after >>= f) Q := by
  have hname : Derives (nameAfter after) fun read t => read = [t] ∧ NameToken t :=
    .accept (.get fun c => .fail _ _) fun t ht => .pure ⟨rfl, is_name.mp ht⟩
  refine hname.bind fun t read h => ?_
  obtain ⟨rfl, ht⟩ := h
  exact hf t ht

namespace Field

theorem derives_readMany (n : Nat) : Derives (readMany n) Fields := by
  induction n with
  | zero => exact .pure .nil
  | succ n ih =>
    refine .accept (.pure .nil) fun name hname => ?_
    refine (derives_readAfterColon (is_name.mp hname)).bind fun a ts hfield => ?_
    refine .accept (.pure (by simpa using Fields.last hfield)) fun comma hcomma => ?_
    refine ih.bind fun fs us hfs => .pure ?_
    simpa using Fields.cons hfield (is_mark.mp hcomma) hfs

theorem derives_readBetween (opening closing : Mark) :
    Derives (readBetween opening closing) fun read fs =>
      ∃ l ts r, read = l :: ts ++ [r] ∧ l.lexeme = .mark opening ∧ Fields ts fs ∧
        r.lexeme = .mark closing := by
  refine .require fun l hl => .get fun c => ?_
  refine (derives_readMany _).bind fun fs ts hfs => .require fun r hr => .pure ?_
  exact ⟨l, ts, r, by simp, is_mark.mp hl, hfs, is_mark.mp hr⟩

end Field

theorem TypeDef.derives_read? (exported : Bool) :
    Derives (TypeDef.read? exported) (Optional (TypeDefinition exported)) := by
  refine .accept (.pure rfl) fun kw hkw => .name fun name hname => ?_
  refine (Field.derives_readBetween _ _).bind fun fs read hfs => .pure ?_
  obtain ⟨l, ts, r, rfl, hl, hfs, hr⟩ := hfs
  simpa [Optional] using TypeDefinition.mk (is_keyword.mp hkw) hname hl hfs hr

theorem VariableDecl.derives_read? (exported : Bool) :
    Derives (VariableDecl.read? exported) (Optional (VariableDeclaration exported)) := by
  refine .accept (.pure rfl) fun kw hkw => .name fun name hname => ?_
  refine (derives_readAfterColon hname).bind fun a ts hfield => ?_
  refine .accept (.pureBind ?_) fun assign hassign => ?_
  · refine .require fun semicolon hs => .pure ?_
    simpa [Optional] using VariableDeclaration.plain (is_keyword.mp hkw) hfield (is_mark.mp hs)
  · refine (Expr.derives_readAfter assign).someBind fun e us he => ?_
    refine .require fun semicolon hs => .pure ?_
    simpa [Optional] using VariableDeclaration.valued (is_keyword.mp hkw) hfield
      (is_operator.mp hassign) he (is_mark.mp hs)

theorem ConstantDecl.derives_read? (exported : Bool) :
    Derives (ConstantDecl.read? exported) (Optional (ConstantDeclaration exported)) := by
  refine .accept (.pure rfl) fun kw hkw => .name fun name hname => ?_
  refine (derives_readAfterColon hname).bind fun a ts hfield => ?_
  refine .require fun assign hassign => (Expr.derives_readAfter assign).bind fun e us he => ?_
  refine .require fun semicolon hs => .pure ?_
  simpa [Optional] using ConstantDeclaration.mk (is_keyword.mp hkw) hfield
    (is_operator.mp hassign) he (is_mark.mp hs)

/-! ### Statements -/

section Statements

variable {sub : Reader (Option Stmt)}

theorem Block.derives_statements (hs : Derives sub (Optional Statement)) (n : Nat) :
    Derives (Block.statements sub n) Statements := by
  induction n with
  | zero => exact .pure .nil
  | succ n ih =>
    refine hs.optional (.pure .nil) fun st ts h => ih.bind fun ss us hss => .pure ?_
    simpa using Statements.cons h hss

theorem Block.derives_readWith? (hs : Derives sub (Optional Statement)) :
    Derives (Block.readWith? sub) (Optional Braces) := by
  refine .accept (.pure rfl) fun l hl => .get fun c => ?_
  refine (Block.derives_statements hs _).bind fun ss ts hss => .require fun r hr => .pure ?_
  simpa [Optional] using Braces.mk (is_mark.mp hl) hss (is_mark.mp hr)

theorem Block.derives_requireWith (hs : Derives sub (Optional Statement)) :
    Derives (Block.requireWith sub) Braces :=
  (Block.derives_readWith? hs).optional (.get fun c => .throw _) fun b ts h =>
    .pure (by simpa using h)

namespace Stmt

theorem derives_branchWith? (hs : Derives sub (Optional Statement)) (n : Nat) :
    Derives (branchWith? sub n) (Optional Conditional) := by
  induction n with
  | zero => exact .pure rfl
  | succ n ih =>
    refine .accept (.pure rfl) fun kw hkw => ?_
    have hif := is_keyword.mp hkw
    refine (Expr.derives_readAfter kw).bind fun c ts hc => ?_
    refine (Block.derives_requireWith hs).bind fun b us hb => .accept ?_ fun other hother => ?_
    · exact .pure (by simpa [Optional] using Conditional.plain hif hc hb)
    · have helse := is_keyword.mp hother
      refine ih.optional ?_ fun inner vs hinner => .pure ?_
      · refine (Block.derives_requireWith hs).bind fun b' vs hb' => .pure ?_
        simpa [Optional] using Conditional.orElse hif hc hb helse hb'
      · simpa [Optional] using Conditional.orIf hif hc hb helse hinner

theorem derives_loopWith? (hs : Derives sub (Optional Statement)) :
    Derives (loopWith? sub) (Optional Statement) := by
  refine .accept (.pure rfl) fun kw hkw => (Expr.derives_readAfter kw).bind fun c ts hc => ?_
  refine (Block.derives_requireWith hs).bind fun b us hb => .pure ?_
  simpa [Optional] using Statement.loop (is_keyword.mp hkw) hc hb

theorem derives_ret? : Derives ret? (Optional Statement) := by
  refine .accept (.pure rfl) fun kw hkw => Expr.derives_read?.optional ?_ fun e ts he => ?_
  · exact .require fun r hr => .pure (Statement.ret (is_keyword.mp hkw) (is_mark.mp hr))
  · refine .require fun r hr => .pure ?_
    simpa [Optional] using Statement.retValue (is_keyword.mp hkw) he (is_mark.mp hr)

theorem derives_simple? : Derives simple? (Optional Statement) := by
  refine Expr.derives_read?.optional (.pure rfl) fun e ts he => .accept (.pureBind ?_) fun op hop => ?_
  · refine .require fun r hr => .pure ?_
    simpa [Optional] using Statement.expr he (is_mark.mp hr)
  · dsimp only
    split
    · next ha =>
      refine (Expr.derives_readAfter op).bind fun v us hv => .pureBind (.require fun r hr => .pure ?_)
      simpa [Optional] using Statement.assign he ha (is_operator.mp hop) hv (is_mark.mp hr)
    · exact (Derives.fail (P := fun _ _ => False) _ _).bind fun _ _ h => h.elim

theorem derives_firstOf {α : Type} {P : List Token → α → Prop} {rs : List (Reader (Option α))}
    (h : ∀ r ∈ rs, Derives r (Optional P)) : Derives (firstOf rs) (Optional P) := by
  induction rs with
  | nil => exact .pure rfl
  | cons r rs ih =>
    rw [List.forall_mem_cons] at h
    exact h.1.optional (ih h.2) fun a ts ha => .pure (by simpa [Optional] using ha)

/-- What is read as one of several kinds. -/
theorem derives_as {α β : Type} {P : List Token → α → Prop} {Q : List Token → β → Prop}
    {r : Reader (Option α)} {g : α → β} (h : Derives r (Optional P))
    (hq : ∀ read a, P read a → Q read (g a)) : Derives ((·.map g) <$> r) (Optional Q) :=
  h.map fun read o ho => by
    cases o with
    | none => exact ho
    | some a => exact hq read a ho

theorem derives_readWith? (hs : Derives sub (Optional Statement)) :
    Derives (readWith? sub) (Optional Statement) := by
  refine .get fun c => ?_
  split
  · exact .pure rfl
  · refine derives_firstOf ?_
    simp only [List.forall_mem_cons]
    refine ⟨?_, ?_, ?_, ?_, derives_loopWith? hs, derives_ret?, ?_, derives_simple?, by simp⟩
    · exact derives_as (VariableDecl.derives_read? false) fun _ _ => .varDecl
    · exact derives_as (ConstantDecl.derives_read? false) fun _ _ => .constDecl
    · exact derives_as (TypeDef.derives_read? false) fun _ _ => .typeDef
    · exact derives_as (derives_branchWith? hs _) fun _ _ => .branch
    · exact derives_as (Block.derives_readWith? hs) fun _ _ => .block

theorem derives_nested (depth : Nat) : Derives (nested depth) (Optional Statement) := by
  induction depth with
  | zero => exact .pure rfl
  | succ depth ih => exact derives_readWith? ih

end Stmt

end Statements

theorem Block.derives_read : Derives Block.read Braces :=
  Block.derives_requireWith (.get fun _ => Stmt.derives_nested _)

/-! ### Files -/

theorem FunctionDef.derives_read? (exported : Bool) :
    Derives (FunctionDef.read? exported) (Optional (FunctionDefinition exported)) := by
  refine .accept (.pure rfl) fun kw hkw => .name fun name hname => ?_
  refine (Field.derives_readBetween _ _).bind fun params read hparams => ?_
  obtain ⟨l, ts, r, rfl, hl, hparams, hr⟩ := hparams
  refine .accept (.pureBind ?_) fun arrow harrow => ?_
  · refine Block.derives_read.bind fun body us hbody => .pure ?_
    simpa [Optional] using FunctionDefinition.plain (is_keyword.mp hkw) hname hl hparams hr hbody
  · refine (derives_readAfter arrow).someBind fun a us ha => ?_
    refine Block.derives_read.bind fun body vs hbody => .pure ?_
    simpa [Optional] using FunctionDefinition.returning (is_keyword.mp hkw) hname hl hparams hr
      (is_mark.mp harrow) ha hbody

/-- An item has a first token. -/
theorem Grammar.TopLevel.ne_nil {ts : List Token} {item : Item} (h : TopLevel ts item) : ts ≠ [] := by
  rcases h with _ | h | h
  · simp
  · rcases h with h | h | h | h <;> cases h <;> simp
  · simp

namespace Item

theorem derives_declaration? (exported : Bool) :
    Derives (declaration? exported) (Optional (Declaration exported)) := by
  refine Stmt.derives_firstOf ?_
  simp only [List.forall_mem_cons]
  refine ⟨?_, ?_, ?_, ?_, by simp⟩
  · exact Stmt.derives_as (TypeDef.derives_read? exported) fun _ _ => .typeDef
  · exact Stmt.derives_as (FunctionDef.derives_read? exported) fun _ _ => .function
  · exact Stmt.derives_as (VariableDecl.derives_read? exported) fun _ _ => .varDecl
  · exact Stmt.derives_as (ConstantDecl.derives_read? exported) fun _ _ => .constDecl

theorem derives_import? :
    Derives Import.read? (Optional fun read i => TopLevel read (.importFile i)) := by
  refine .accept (.pure rfl) fun kw hkw => .accept (.fail _ _) fun path hpath => ?_
  obtain ⟨file, hfile⟩ := is_text.mp hpath
  obtain ⟨lexeme, position⟩ := path
  obtain rfl := hfile
  refine .require fun r hr => .pure ?_
  exact TopLevel.importFile (is_keyword.mp hkw) rfl (is_mark.mp hr)

theorem derives_read? : Derives Item.read? (Optional TopLevel) := by
  refine derives_import?.optional ?_ fun i ts h => .pure (by simpa [Optional] using h)
  refine .accept ?_ fun kw hkw => ?_
  · refine (derives_declaration? false).mono fun read o h => ?_
    cases o with
    | none => exact h
    | some item => exact TopLevel.plain h
  · refine (derives_declaration? true).optional (.get fun c => .fail _ _) fun item ts h => .pure ?_
    simpa [Optional] using TopLevel.exported (is_keyword.mp hkw) h

/-- With as many steps as there are tokens left, all of them are read. -/
theorem ends_readAll {n : Nat} {c : Cursor} (h : c.rest.length ≤ n) :
    Ends (readAll n) c (fun items _ => Module c.rest items) (fun _ _ => True) := by
  induction n generalizing c with
  | zero =>
    have hnil : c.rest = [] := List.length_eq_zero_iff.mp (Nat.le_zero.mp h)
    exact Ends.pure (by rw [hnil]; exact .nil)
  | succ n ih =>
    refine Ends.bind (Ends.get ?_)
    split
    · next hempty =>
      exact Ends.pure (by rw [List.isEmpty_iff.mp hempty]; exact .nil)
    · refine (derives_read? c).seq (fun _ _ h => h) ?_
      rintro o c' ⟨read, hread, ho⟩
      cases o with
      | none => exact Ends.bind (Ends.get (Ends.throw trivial))
      | some item =>
        have hlen : c'.rest.length ≤ n := by
          have hpos := List.length_pos_iff.mpr (TopLevel.ne_nil ho)
          rw [hread, List.length_append] at h
          omega
        refine (ih hlen).seq (fun _ _ h => h) fun items _ hitems => Ends.pure ?_
        rw [hread]
        exact .cons ho hitems

end Item

/-- What is read from a list of tokens is a file that the grammar derives from all of them. -/
theorem SourceFile.module_of_parse {file : String} {tokens : List Token} {source : SourceFile}
    (h : SourceFile.parse file tokens = .ok source) :
    source.file = file ∧ Module tokens source.items := by
  unfold SourceFile.parse at h
  split at h
  · next items c hr =>
    cases h
    have hends := Item.ends_readAll (c := .ofTokens tokens) (Nat.le_refl _)
    exact ⟨rfl, hends.ok hr⟩
  · cases h

end StoragePlan
