import StoragePlan.Proofs.Ends
import StoragePlan.Proofs.Scanning
import StoragePlan.SourceFile

/-!
Sound syntax trees: where a tree has a token for a name, a literal, a type or a field, the token is
one. `Reads` follows a reader along the tokens it takes, and every tree that is read from the tokens
of a text is sound, with the names that it declares standing apart in the text.
-/

namespace StoragePlan

/-! ### Trees -/

/-- The token is a name. -/
def Token.Names (t : Token) : Prop := ∃ id, t.lexeme = .name id ∧ IsName id

/-- The token is an integer or a text. -/
def Token.Literal (t : Token) : Prop := (∃ v, t.lexeme = .integer v) ∨ ∃ s, t.lexeme = .text s

mutual

def Expr.Sound : Expr → Prop
  | .literal _ t => t.Literal
  | .ident _ t => t.Names
  | .unary _ _ operand => operand.Sound
  | .binary _ left op right =>
    left.Sound ∧ right.Sound ∧ (Expr.isAccess op = true → ∃ id t, right = .ident id t)
  | .call _ callee args => callee.Names ∧ Expr.SoundAll args
  | .index _ target _ subscript => target.Sound ∧ subscript.Sound

def Expr.SoundAll : List Expr → Prop
  | [] => True
  | e :: rest => e.Sound ∧ Expr.SoundAll rest

end

/-- The variable behind a sound expression has a name. -/
theorem Expr.Sound.root {e : Expr} (h : e.Sound) {t : Token} (hr : e.root? = some t) : t.Names := by
  fun_induction Expr.root? e with
  | case1 id t' =>
    cases hr
    exact h
  | case2 id left op right ha ih => exact ih h.1 hr
  | case3 => cases hr
  | case4 id target bracket subscript ih => exact ih h.1 hr
  | case5 => cases hr

/-- A dimension has no more than 32 bits, and the name is one of a type. -/
structure Annotation.Sound (a : Annotation) : Prop where
  name : (∃ p, a.name.lexeme = .primitive p) ∨ a.name.Names
  dims : ∀ d ∈ a.dims, d.1 ≤ Token.maxInteger

structure Field.Sound (f : Field) : Prop where
  name : f.name.Names
  annotation : f.annotation.Sound

structure TypeDef.Sound (d : TypeDef) : Prop where
  name : d.name.Names
  fields : ∀ f ∈ d.fields, f.Sound

structure VariableDecl.Sound (d : VariableDecl) : Prop where
  name : d.name.Names
  annotation : d.annotation.Sound
  value : ∀ e ∈ d.value, e.Sound

structure ConstantDecl.Sound (d : ConstantDecl) : Prop where
  name : d.name.Names
  annotation : d.annotation.Sound
  value : d.value.Sound

mutual

def Stmt.Sound : Stmt → Prop
  | .varDecl d => d.Sound
  | .constDecl d => d.Sound
  | .typeDef d => d.Sound
  | .assign target _ value => target.Sound ∧ target.isAssignable = true ∧ value.Sound
  | .expr e => e.Sound
  | .branch _ c thenBlock none => c.Sound ∧ thenBlock.Sound
  | .branch _ c thenBlock (some elseBlock) => c.Sound ∧ thenBlock.Sound ∧ elseBlock.Sound
  | .loop _ c body => c.Sound ∧ body.Sound
  | .ret _ value => ∀ e ∈ value, e.Sound
  | .block b => b.Sound

def Block.Sound : Block → Prop
  | ⟨_, _, body⟩ => Stmt.SoundAll body

def Stmt.SoundAll : List Stmt → Prop
  | [] => True
  | st :: rest => st.Sound ∧ Stmt.SoundAll rest

end

theorem Block.Sound.body {b : Block} (h : b.Sound) : Stmt.SoundAll b.body := by
  obtain ⟨o, c, body⟩ := b
  rw [Block.Sound] at h
  exact h

structure FunctionDef.Sound (d : FunctionDef) : Prop where
  name : d.name.Names
  params : ∀ f ∈ d.params, f.Sound
  returns : ∀ a ∈ d.returns, a.Sound
  body : d.body.Sound

def Item.Sound : Item → Prop
  | .importFile _ => True
  | .typeDef d => d.Sound
  | .function d => d.Sound
  | .varDecl d => d.Sound
  | .constDecl d => d.Sound

theorem SourceFile.types_sound {f : SourceFile} (h : ∀ i ∈ f.items, i.Sound) :
    ∀ d ∈ f.types, d.Sound := by
  intro d hd
  obtain ⟨i, hi, he⟩ := List.mem_filterMap.mp hd
  cases i <;> cases he
  exact h _ hi

theorem SourceFile.functions_sound {f : SourceFile} (h : ∀ i ∈ f.items, i.Sound) :
    ∀ d ∈ f.functions, d.Sound := by
  intro d hd
  obtain ⟨i, hi, he⟩ := List.mem_filterMap.mp hd
  cases i <;> cases he
  exact h _ hi

/-! ### Declared names -/

mutual

/-- The names that a statement declares, in the order of the text. -/
def Stmt.names : Stmt → List Token
  | .varDecl d => [d.name]
  | .constDecl d => [d.name]
  | .typeDef d => [d.name]
  | .branch _ _ thenBlock none => thenBlock.names
  | .branch _ _ thenBlock (some elseBlock) => thenBlock.names ++ elseBlock.names
  | .loop _ _ body => body.names
  | .block b => b.names
  | .assign _ _ _ => []
  | .expr _ => []
  | .ret _ _ => []

def Block.names : Block → List Token
  | ⟨_, _, body⟩ => Stmt.namesAll body

def Stmt.namesAll : List Stmt → List Token
  | [] => []
  | st :: rest => st.names ++ Stmt.namesAll rest

end

/-- The names that the body of a function declares, its parameters included. -/
def FunctionDef.inner (d : FunctionDef) : List Token := d.params.map (·.name) ++ d.body.names

/-- The names that a part of a file declares, in the order of the text. -/
def Item.names : Item → List Token
  | .importFile _ => []
  | .typeDef d => [d.name]
  | .function d => d.name :: d.inner
  | .varDecl d => [d.name]
  | .constDecl d => [d.name]

/-! ### Readers -/

/-- From sound tokens the reader takes some, in order, and what it answers goes with them. -/
def Reads {α : Type} (x : Reader α) (P : α → List Token → Prop) : Prop :=
  ∀ c : Cursor, (∀ t ∈ c.rest, t.Sound) →
    Ends x c (fun a c' => ∃ read, c.rest = read ++ c'.rest ∧ P a read) (fun _ _ => True)

namespace Reads

variable {α β : Type} {x : Reader α} {f : α → Reader β} {P P' : α → List Token → Prop}
  {Q : β → List Token → Prop}

theorem pure {a : α} (h : P a []) : Reads (Pure.pure a) P := fun _ _ => Ends.pure ⟨[], rfl, h⟩

theorem throw (e : ParseFault) : Reads (MonadExcept.throw e) P := fun _ _ => Ends.throw trivial

theorem fail (p : Position) (e : ParseError) : Reads (Reader.fail p e) P := throw _

theorem mono (h : Reads x P) (hp : ∀ a read, P a read → P' a read) : Reads x P' := fun c hc =>
  (h c hc).mono (fun a _ ⟨read, hr, ha⟩ => ⟨read, hr, hp a read ha⟩) (fun _ _ h => h)

theorem bind (hx : Reads x P)
    (hf : ∀ a read, P a read → Reads (f a) fun b more => Q b (read ++ more)) :
    Reads (x >>= f) Q := by
  intro c hc
  refine (hx c hc).seq (fun _ _ h => h) ?_
  rintro a c' ⟨read, hr, ha⟩
  have hc' : ∀ t ∈ c'.rest, t.Sound := fun t ht => hc t (by simp [hr, ht])
  refine (hf a read ha c' hc').mono ?_ (fun _ _ h => h)
  rintro b c'' ⟨more, hm, hb⟩
  exact ⟨read ++ more, by rw [hr, hm, List.append_assoc], hb⟩

theorem map {g : α → β} (hx : Reads x P) (hg : ∀ a read, P a read → Q (g a) read) :
    Reads (g <$> x) Q := fun c hc =>
  Ends.map ((hx c hc).mono (fun a _ ⟨read, hr, ha⟩ => ⟨read, hr, hg a read ha⟩) (fun _ _ h => h))

/-- A look at the cursor takes no token. -/
theorem get {f : Cursor → Reader β} (hf : ∀ c, Reads (f c) Q) : Reads (MonadState.get >>= f) Q :=
  fun c hc => Ends.bind (Ends.get (hf c c hc))

end Reads

namespace Reader

/-- Either no token is taken, or one that passes a test. -/
def Takes (test : Token → Prop) : Option Token → List Token → Prop
  | none, read => read = []
  | some t, read => read = [t] ∧ t.Sound ∧ test t

theorem reads_nextIf? (test : Token → Bool) :
    Reads (nextIf? test) (Takes (test · = true)) := by
  intro c hc
  unfold Ends nextIf?
  split
  · next a c' hx =>
    split at hx
    · cases hx
      exact ⟨[], rfl, rfl⟩
    · next t rest hr =>
      split at hx
      · next ht =>
        cases hx
        exact ⟨[t], by simp [hr], rfl, hc t (by simp [hr]), ht⟩
      · cases hx
        exact ⟨[], rfl, rfl⟩
  · trivial

theorem reads_accept? (l : Lexeme) : Reads (accept? l) (Takes (·.is l = true)) :=
  reads_nextIf? _

theorem reads_acceptAny? (set : List Lexeme) :
    Reads (acceptAny? set) (Takes fun t => ∃ l ∈ set, t.is l = true) :=
  (reads_nextIf? _).mono fun o read h => by
    cases o with
    | none => exact h
    | some t => exact ⟨h.1, h.2.1, by simpa using h.2.2⟩

theorem names_of_is {t : Token} (hs : t.Sound) {id : String} (h : t.is (.name id) = true) :
    t.Names := by
  unfold Token.is at h
  unfold Token.Sound at hs
  cases hl : t.lexeme <;> simp_all [Lexeme.sameKind]
  exact ⟨_, hl, hs⟩

theorem reads_acceptName? : Reads acceptName? (Takes Token.Names) :=
  (reads_accept? _).mono fun o read h => by
    cases o with
    | none => exact h
    | some t => exact ⟨h.1, h.2.1, names_of_is h.2.1 h.2.2⟩

theorem reads_require (l : Lexeme) :
    Reads (require l) fun t read => read = [t] ∧ t.Sound ∧ t.is l = true := by
  refine (reads_accept? l).bind fun o read h => ?_
  cases o with
  | none => exact .get fun c => .throw _
  | some t =>
    obtain ⟨rfl, h⟩ := h
    exact .pure ⟨rfl, h⟩

theorem reads_newId : Reads newId fun _ read => read = [] := fun _ _ => ⟨[], rfl, rfl⟩

end Reader

end StoragePlan
