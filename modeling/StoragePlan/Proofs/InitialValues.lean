import Mathlib.Algebra.Group.Int.Defs
import StoragePlan.Proofs.AddressMap
import StoragePlan.Proofs.Derivations
import StoragePlan.Proofs.Frames
import StoragePlan.Proofs.Promises

/-!
The values that storage holds. Every element of a value was written by a declaration, and its value is
the integer literal of the declaration, or zero where there is none. The scanner bounds the magnitude of
such a literal, signs in front of it do not change the magnitude, and the check compares the rank of the
literal with that of the declared type. Together these say which values an integer element can have.
-/

namespace StoragePlan

/-! ### Declared values -/

/-- A value as its declaration gives it: the type as written, and the integer that storage gets. -/
structure Initial where
  annotation : Annotation
  value : Int

def VariableDecl.initial (d : VariableDecl) : Initial :=
  ⟨d.annotation, (d.value.bind (·.integer?)).getD 0⟩

def ConstantDecl.initial (d : ConstantDecl) : Initial := ⟨d.annotation, d.value.integer?.getD 0⟩

/-- A parameter has no value of its own. -/
def Field.initial (f : Field) : Initial := ⟨f.annotation, 0⟩

mutual

/-- The values that a statement declares, at whatever depth. -/
def Stmt.initials : Stmt → List Initial
  | .varDecl d => [d.initial]
  | .constDecl d => [d.initial]
  | .branch _ _ thenBlock none => thenBlock.initials
  | .branch _ _ thenBlock (some elseBlock) => thenBlock.initials ++ elseBlock.initials
  | .loop _ _ body => body.initials
  | .block b => b.initials
  | .typeDef _ => []
  | .assign _ _ _ => []
  | .expr _ => []
  | .ret _ _ => []

def Block.initials : Block → List Initial
  | ⟨_, _, body⟩ => Stmt.initialsAll body

def Stmt.initialsAll : List Stmt → List Initial
  | [] => []
  | st :: rest => st.initials ++ Stmt.initialsAll rest

end

theorem Block.initials_eq (b : Block) : b.initials = Stmt.initialsAll b.body := by
  obtain ⟨o, c, body⟩ := b
  rw [Block.initials]
  rfl

def FunctionDef.initials (d : FunctionDef) : List Initial :=
  d.params.map (·.initial) ++ Stmt.initialsAll d.body.body

def Item.initials : Item → List Initial
  | .function d => d.initials
  | .varDecl d => [d.initial]
  | .constDecl d => [d.initial]
  | .importFile _ => []
  | .typeDef _ => []

namespace Initial

/-- The element is the one of such a declaration, under some name and among some types. -/
def Writes (x : Initial) (e : Element) : Prop :=
  ∃ us name, e = x.annotation.element us name x.value

/-- The magnitude is one that a literal can have. -/
def Bounded (x : Initial) : Prop := x.value.natAbs ≤ Token.maxInteger

/-- If the id of the type is that of an integer, the type is this integer, and the value is of its rank
or below. -/
def Ranked (x : Initial) : Prop :=
  ∀ p : Primitive, p.isInteger = true → x.annotation.type.typeId = p.name →
    x.annotation.type = .prim p ∧ (ValueType.ofInteger x.value).rank ≤ p.rank

end Initial

/-! ### Elements of frames -/

theorem Stmt.own_writes {us : List Udt} {st : Stmt} {e : Element} (he : e ∈ st.own us) :
    ∃ x ∈ st.initials, x.Writes e := by
  cases st with
  | varDecl d =>
    obtain rfl := List.mem_singleton.mp he
    exact ⟨d.initial, by simp [initials], us, d.name, rfl⟩
  | constDecl d =>
    obtain rfl := List.mem_singleton.mp he
    exact ⟨d.initial, by simp [initials], us, d.name, rfl⟩
  | _ => cases he

theorem Stmt.ownAll_writes {us : List Udt} {body : List Stmt} {e : Element}
    (he : e ∈ Stmt.ownAll us body) : ∃ x ∈ Stmt.initialsAll body, x.Writes e := by
  induction body generalizing us with
  | nil => cases he
  | cons st rest ih =>
    rw [Stmt.initialsAll]
    rcases List.mem_append.mp he with he | he
    · obtain ⟨x, hx, hw⟩ := Stmt.own_writes he
      exact ⟨x, List.mem_append_left _ hx, hw⟩
    · obtain ⟨x, hx, hw⟩ := ih he
      exact ⟨x, List.mem_append_right _ hx, hw⟩

theorem mem_laidOut {es : List Element} {q : Placed} (hq : q ∈ laidOut es) : q.element ∈ es := by
  have hmem : q.element ∈ (laidOut es).map (·.element) := List.mem_map_of_mem hq
  rwa [map_element_laidOut, List.mem_reverse] at hmem

mutual

theorem Stmt.inside_writes {us : List Udt} {q : Placed} : ∀ st : Stmt, q ∈ st.inside us →
    ∃ x ∈ st.initials, x.Writes q.element
  | .branch _ _ thenBlock none, hq => by
    rw [Stmt.initials]
    exact Block.frame_writes thenBlock hq
  | .branch _ _ thenBlock (some elseBlock), hq => by
    rw [Stmt.initials]
    rcases List.mem_append.mp hq with hq | hq
    · obtain ⟨x, hx, hw⟩ := Block.frame_writes thenBlock hq
      exact ⟨x, List.mem_append_left _ hx, hw⟩
    · obtain ⟨x, hx, hw⟩ := Block.frame_writes elseBlock hq
      exact ⟨x, List.mem_append_right _ hx, hw⟩
  | .loop _ _ body, hq => by
    rw [Stmt.initials]
    exact Block.frame_writes body hq
  | .block b, hq => by
    rw [Stmt.initials]
    exact Block.frame_writes b hq
  | .varDecl _, hq => nomatch hq
  | .constDecl _, hq => nomatch hq
  | .typeDef _, hq => nomatch hq
  | .assign _ _ _, hq => nomatch hq
  | .expr _, hq => nomatch hq
  | .ret _ _, hq => nomatch hq

theorem Block.frame_writes {us : List Udt} {q : Placed} : ∀ b : Block, q ∈ b.frame us →
    ∃ x ∈ b.initials, x.Writes q.element
  | ⟨_, _, body⟩, hq => by
    rw [Block.initials]
    rcases List.mem_append.mp hq with hq | hq
    · exact Stmt.insideAll_writes body hq
    · exact Stmt.ownAll_writes (mem_laidOut hq)

theorem Stmt.insideAll_writes {us : List Udt} {q : Placed} : ∀ body : List Stmt,
    q ∈ Stmt.insideAll us body → ∃ x ∈ Stmt.initialsAll body, x.Writes q.element
  | [], hq => nomatch hq
  | st :: rest, hq => by
    rw [Stmt.initialsAll]
    rcases List.mem_append.mp hq with hq | hq
    · obtain ⟨x, hx, hw⟩ := Stmt.inside_writes st hq
      exact ⟨x, List.mem_append_left _ hx, hw⟩
    · obtain ⟨x, hx, hw⟩ := Stmt.insideAll_writes rest hq
      exact ⟨x, List.mem_append_right _ hx, hw⟩

end

/-- Every element of a frame is that of a parameter, variable or constant of the function. -/
theorem FunctionDef.frame_writes {us : List Udt} {d : FunctionDef} {q : Placed}
    (hq : q ∈ (d.frame us).elements) : ∃ x ∈ d.initials, x.Writes q.element := by
  rw [FunctionDef.initials]
  rcases List.mem_append.mp hq with hq | hq
  · obtain ⟨x, hx, hw⟩ := Stmt.insideAll_writes _ hq
    exact ⟨x, List.mem_append_right _ hx, hw⟩
  · rcases List.mem_append.mp (mem_laidOut hq) with he | he
    · obtain ⟨f, hf, heq⟩ := List.mem_map.mp he
      exact ⟨f.initial, List.mem_append_left _ (List.mem_map_of_mem hf), us, f.name, heq.symm⟩
    · obtain ⟨x, hx, hw⟩ := Stmt.ownAll_writes he
      exact ⟨x, List.mem_append_right _ hx, hw⟩

/-! ### The magnitude of literals -/

namespace Grammar

/-- An integer literal that is the whole expression has the magnitude of a token. -/
def Modest (ts : List Token) (e : Expr) : Prop :=
  (∀ t ∈ ts, t.Sound) → ∀ v ∈ e.integer?, v.natAbs ≤ Token.maxInteger

mutual

theorem Primary.modest {ts : List Token} {e : Expr} : Primary ts e → Modest ts e
  | @Primary.literal t id hl => by
    intro hts v hv
    obtain ⟨lexeme, p⟩ := t
    have hsound : Lexeme.Sound lexeme := hts ⟨lexeme, p⟩ List.mem_cons_self
    cases lexeme with
    | integer n =>
      obtain rfl : n = v := by simpa [Expr.integer?] using hv
      have hrange : 0 ≤ n ∧ n ≤ Token.maxInteger := hsound
      omega
    | _ => cases hv
  | .name id hn => by simp [Modest, Expr.integer?]
  | .call id _ _ _ _ => by simp [Modest, Expr.integer?]
  | .paren _ he _ => fun hts => he.modest fun t ht => hts t (by simp [ht])

theorem Suffixed.modest {ts : List Token} {e : Expr} : Suffixed ts e → Modest ts e
  | .primary h => h.modest
  | .field _ _ _ _ _ => by simp [Modest, Expr.integer?]
  | .index _ _ _ _ _ => by simp [Modest, Expr.integer?]

theorem Operand.modest {ts : List Token} {e : Expr} : Operand ts e → Modest ts e
  | .suffixed h => h.modest
  | .negated _ h => by
    intro hts v hv
    have hmodest := h.modest fun t ht => hts t (List.mem_cons_of_mem _ ht)
    obtain rfl := Option.some.inj hv
    rw [Int.natAbs_neg]
    exact hmodest _ rfl
  | .applied _ _ _ _ => by simp [Modest, Expr.integer?]

theorem Expression.modest {ts : List Token} {e : Expr} : Expression ts e → Modest ts e
  | .operand h => h.modest
  | .joined _ _ _ _ => by simp [Modest, Expr.integer?]

end

/-! ### The magnitude of declared values -/

/-- All values that stand in the tokens have the magnitude of a literal. -/
def Tempered (ts : List Token) (xs : List Initial) : Prop :=
  (∀ t ∈ ts, t.Sound) → ∀ x ∈ xs, x.Bounded

theorem natAbs_getD_le {o : Option Int} {n : Nat} (h : ∀ v ∈ o, v.natAbs ≤ n) :
    (o.getD 0).natAbs ≤ n := by
  cases o with
  | none => exact Nat.zero_le n
  | some v => exact h v rfl

theorem VariableDeclaration.tempered {exported : Bool} {ts : List Token} {d : VariableDecl}
    (h : VariableDeclaration exported ts d) : Tempered ts [d.initial] := by
  intro hts x hx
  obtain rfl := List.mem_singleton.mp hx
  cases h with
  | plain => exact Nat.zero_le _
  | @valued _ _ _ _ us _ e _ _ _ he _ =>
    have hmodest := he.modest fun t ht => hts t (by simp [ht])
    exact natAbs_getD_le hmodest

theorem ConstantDeclaration.tempered {exported : Bool} {ts : List Token} {d : ConstantDecl}
    (h : ConstantDeclaration exported ts d) : Tempered ts [d.initial] := by
  intro hts x hx
  obtain rfl := List.mem_singleton.mp hx
  cases h with
  | @mk _ _ _ _ us _ e _ _ _ he _ =>
    have hmodest := he.modest fun t ht => hts t (by simp [ht])
    exact natAbs_getD_le hmodest

mutual

theorem Statement.tempered {ts : List Token} {st : Stmt} : Statement ts st → Tempered ts st.initials
  | .varDecl h => by
    rw [Stmt.initials]
    exact h.tempered
  | .constDecl h => by
    rw [Stmt.initials]
    exact h.tempered
  | .typeDef h => by
    rw [Stmt.initials]
    exact fun _ _ hx => nomatch hx
  | .branch h => h.tempered
  | .loop _ _ h => by
    rw [Stmt.initials]
    exact fun hts => h.tempered fun t ht => hts t (by simp [ht])
  | .ret _ _ => by
    rw [Stmt.initials]
    exact fun _ _ hx => nomatch hx
  | .retValue _ _ _ => by
    rw [Stmt.initials]
    exact fun _ _ hx => nomatch hx
  | .block h => by
    rw [Stmt.initials]
    exact h.tempered
  | .expr _ _ => by
    rw [Stmt.initials]
    exact fun _ _ hx => nomatch hx
  | .assign _ _ _ _ _ => by
    rw [Stmt.initials]
    exact fun _ _ hx => nomatch hx

theorem Statements.tempered {ts : List Token} {ss : List Stmt} :
    Statements ts ss → Tempered ts (Stmt.initialsAll ss)
  | .nil => by
    rw [Stmt.initialsAll]
    exact fun _ _ hx => nomatch hx
  | .cons h hs => by
    rw [Stmt.initialsAll]
    intro hts
    exact List.forall_mem_append.mpr ⟨h.tempered fun t ht => hts t (by simp [ht]),
      hs.tempered fun t ht => hts t (by simp [ht])⟩

theorem Braces.tempered {ts : List Token} {b : Block} : Braces ts b → Tempered ts b.initials
  | .mk _ h _ => by
    rw [Block.initials]
    exact fun hts => h.tempered fun t ht => hts t (by simp [ht])

theorem Conditional.tempered {ts : List Token} {b : Stmt.Branch} :
    Conditional ts b → Tempered ts b.toStmt.initials
  | .plain _ _ h => by
    rw [Stmt.Branch.toStmt, Stmt.initials]
    exact fun hts => h.tempered fun t ht => hts t (by simp [ht])
  | .orElse _ _ h _ h' => by
    rw [Stmt.Branch.toStmt, Stmt.initials]
    intro hts
    exact List.forall_mem_append.mpr ⟨h.tempered fun t ht => hts t (by simp [ht]),
      h'.tempered fun t ht => hts t (by simp [ht])⟩
  | .orIf _ _ h _ h' => by
    rw [Stmt.Branch.toStmt, Stmt.initials, Stmt.Branch.toElse, Block.initials, Stmt.initialsAll,
      Stmt.initialsAll, List.append_nil]
    intro hts
    exact List.forall_mem_append.mpr ⟨h.tempered fun t ht => hts t (by simp [ht]),
      h'.tempered fun t ht => hts t (by simp [ht])⟩

end

theorem FunctionDefinition.tempered {exported : Bool} {ts : List Token} {d : FunctionDef}
    (h : FunctionDefinition exported ts d) : Tempered ts d.initials := by
  have hbody : Tempered ts d.body.initials := by
    cases h with
    | plain _ _ _ _ _ hb => exact fun hts => hb.tempered fun t ht => hts t (by simp [ht])
    | returning _ _ _ _ _ _ _ hb => exact fun hts => hb.tempered fun t ht => hts t (by simp [ht])
  intro hts
  refine List.forall_mem_append.mpr ⟨fun x hx => ?_, d.body.initials_eq ▸ hbody hts⟩
  obtain ⟨f, _, rfl⟩ := List.mem_map.mp hx
  exact Nat.zero_le _

theorem Declaration.tempered {exported : Bool} {ts : List Token} {i : Item}
    (h : Declaration exported ts i) : Tempered ts i.initials := by
  cases h with
  | typeDef => exact fun _ _ hx => nomatch hx
  | function h => exact h.tempered
  | varDecl h => exact h.tempered
  | constDecl h => exact h.tempered

theorem TopLevel.tempered {ts : List Token} {i : Item} (h : TopLevel ts i) :
    Tempered ts i.initials := by
  cases h with
  | importFile => exact fun _ _ hx => nomatch hx
  | plain h => exact h.tempered
  | exported _ h => exact fun hts => h.tempered fun t ht => hts t (List.mem_cons_of_mem _ ht)

theorem Module.tempered {ts : List Token} {items : List Item} (h : Module ts items) :
    Tempered ts (items.flatMap (·.initials)) := by
  induction h with
  | nil => exact fun _ _ hx => nomatch hx
  | cons hi _ ih =>
    intro hts
    exact List.forall_mem_append.mpr ⟨hi.tempered fun t ht => hts t (by simp [ht]),
      ih fun t ht => hts t (by simp [ht])⟩

end Grammar

/-- The values in a file that can be loaded have the magnitude of a literal. -/
theorem Project.load_bounded {lib : Library} {file : String} {source : SourceFile}
    (h : load lib file = .ok source) {i : Item} (hi : i ∈ source.items) :
    ∀ x ∈ i.initials, x.Bounded := by
  obtain ⟨text, hp⟩ := load_eq_ok h
  have hall := (SourceFile.module_of_parse hp).2.tempered (scan_sound text)
  exact fun x hx => hall x (List.mem_flatMap.mpr ⟨i, hi, hx⟩)

/-! ### Values of the right rank -/

/-- A value of an integer type is of its rank or below. -/
def ValueType.Holds (t : ValueType) (v : Int) : Prop :=
  ∀ p : Primitive, p.isInteger = true → t = .prim p → (ofInteger v).rank ≤ p.rank

theorem ValueType.holds_zero (t : ValueType) : t.Holds 0 := fun _ _ _ => Nat.zero_le _

theorem ValueType.holds_of_accepts {t : ValueType} {v : Int}
    (h : t.accepts (.prim (ofInteger v)) = true) : t.Holds v := by
  rintro p hp rfl
  cases p <;> simp_all [accepts, Primitive.isInteger]

/-- A type that stands for an annotation that was read is told from its id. -/
theorem Initial.ranked_of_holds {known : String → Prop} {x : Initial} {t : ValueType}
    (hr : Check.Resolves known x.annotation t) (ha : x.annotation.Sound) (hv : t.Holds x.value) :
    x.Ranked := by
  intro p hp hid
  have ht : x.annotation.type = .prim p := by
    rw [← hr.type, ← ValueType.ofId_typeId (hr.plain ha), hr.type, hid]
    exact ValueType.ofId_typeId (t := .prim p) trivial
  exact ⟨ht, hv p hp (hr.type.trans ht)⟩

namespace Check

variable {s s' : Session}

theorem record_type (id : Nat) (t : ValueType) :
    Ends (record id t) s (fun t' _ => t' = t) (fun _ _ => True) := by
  refine (intern?_ends t).seq (fun _ _ _ => trivial) fun h s₁ _ => ?_
  cases h with
  | none => exact Ends.pure rfl
  | some h => exact Ends.bind (Ends.modify (Ends.pure rfl))

/-- The type of an integer literal is the smallest that has its rank. -/
theorem expr_type (e : Expr) :
    Ends (expr e) s (fun t _ => ∀ v, e.integer? = some v → t = .prim (ValueType.ofInteger v))
      (fun _ _ => True) := by
  refine Ends.of_run (fun t s' hrun v hv => ?_) (fun _ _ _ => trivial)
  unfold Expr.integer? at hv
  split at hv
  · cases hv
    rw [expr] at hrun
    exact (record_type _ _).ok hrun
  · cases hv

/-- A type that accepts an initializer holds what is stored for it. -/
theorem holds_storedValue {target t : ValueType} {e : Expr} (ha : target.accepts t = true)
    (ht : ∀ v, e.integer? = some v → t = .prim (ValueType.ofInteger v)) : target.Holds (storedValue e) := by
  rw [storedValue_eq]
  cases hv : e.integer? with
  | none => exact target.holds_zero
  | some v => exact ValueType.holds_of_accepts (ht v hv ▸ ha)

theorem literalFor_holds (id : String) (target : ValueType) (init : Expr) :
    Ends (literalFor id target init) s (fun _ _ => target.Holds (storedValue init))
      (fun _ _ => True) := by
  unfold literalFor
  split
  · refine (expr_type _).seq (fun _ _ _ => trivial) fun t s₁ ht => ?_
    split
    · next ha => exact Ends.pure (holds_storedValue ha ht)
    · exact Ends.throw trivial
  · exact Ends.throw trivial

theorem value_type (e : Expr) :
    Ends (value e) s (fun t _ => ∀ v, e.integer? = some v → t = .prim (ValueType.ofInteger v))
      (fun _ _ => True) := by
  refine (expr_type e).seq (fun _ _ _ => trivial) fun t s₁ ht => ?_
  unfold requireValue
  split
  · exact Ends.throw trivial
  · exact Ends.pure ht

theorem valueFor_holds (target : ValueType) (init : Expr) :
    Ends (valueFor target init) s (fun _ _ => target.Holds (storedValue init))
      (fun _ _ => True) := by
  refine (value_type init).seq (fun _ _ _ => trivial) fun t s₁ ht => ?_
  split
  · next ha => exact Ends.pure (holds_storedValue ha ht)
  · exact Ends.throw trivial

/-- An initializer that may be missing. -/
theorem forM_holds {target : ValueType} {g : Expr → Check Unit}
    (hg : ∀ e, Ends (g e) s (fun _ _ => target.Holds (storedValue e)) (fun _ _ => True))
    (o : Option Expr) :
    Ends (o.forM g) s (fun _ _ => target.Holds ((o.map storedValue).getD 0)) (fun _ _ => True) := by
  cases o with
  | none => exact Ends.pure target.holds_zero
  | some e => exact hg e

/-! ### Declarations and statements -/

/-- Where the step succeeds, these values are of the right rank. -/
def Ranks {α : Type} (x : Check α) (xs : List Initial) (s : Session) : Prop :=
  Ends x s (fun _ _ => ∀ x ∈ xs, x.Ranked) (fun _ _ => True)

theorem Ranks.nil {α : Type} (x : Check α) (s : Session) : Ranks x [] s :=
  Ends.of_run (fun _ _ _ _ hx => nomatch hx) (fun _ _ _ => trivial)

theorem Ranks.then {α β : Type} {x : Check α} {f : α → Check β} {xs ys : List Initial}
    (hx : Ranks x xs s) (hf : ∀ a s', Ranks (f a) ys s') : Ranks (x >>= f) (xs ++ ys) s :=
  Ends.seq hx (fun _ _ _ => trivial) fun a s' h =>
    (hf a s').mono (fun _ _ h' => List.forall_mem_append.mpr ⟨h, h'⟩) (fun _ _ h => h)

/-- Steps around that declare nothing. -/
theorem Ranks.before {α β : Type} {x : Check α} {f : α → Check β} {ys : List Initial}
    (hf : ∀ a s', Ranks (f a) ys s') : Ranks (x >>= f) ys s := (Ranks.nil x s).then hf

theorem Ranks.after {α β : Type} {x : Check α} {f : α → Check β} {xs : List Initial}
    (hx : Ranks x xs s) : Ranks (x >>= f) xs s :=
  Ends.seq hx (fun _ _ _ => trivial) fun _ _ h =>
    Ends.of_run (fun _ _ _ => h) (fun _ _ _ => trivial)

theorem Ranks.forM {γ : Type} {g : γ → Check PUnit} {xs : γ → List Initial} {cs : List γ}
    (hg : ∀ c ∈ cs, ∀ s, Ranks (g c) (xs c) s) : Ranks (cs.forM g) (cs.flatMap xs) s := by
  induction cs generalizing s with
  | nil => exact .nil _ _
  | cons c cs ih =>
    rw [List.flatMap_cons]
    exact (hg c List.mem_cons_self s).then fun _ s' =>
      ih fun c' hc => hg c' (List.mem_cons_of_mem c hc)

/-- The declaration of a value whose initializer is right. -/
theorem Ranks.of_annotated (name : Token) (x : Initial) (ha : x.annotation.Sound)
    (init : String → ValueType → Check Unit) {α : Type} {f : String → ValueType → Nat → Check α}
    (hinit : ∀ id t s, Ends (init id t) s (fun _ _ => t.Holds x.value) (fun _ _ => True)) :
    Ranks (do
      let id ← ofExcept (nameOf name)
      requireNew id name.position
      let t ← resolve x.annotation
      let n ← sizeOf t x.annotation.position
      init id t
      f id t n) [x] s := by
  refine annotated_ends name x.annotation (fun _ => trivial) fun id t n _ _ _ hr _ => ?_
  refine (hinit id t s).seq (fun _ _ _ => trivial) fun _ s₁ hv => ?_
  refine Ends.of_run (fun _ _ _ => ?_) (fun _ _ _ => trivial)
  exact List.forall_mem_singleton.mpr (Initial.ranked_of_holds hr ha hv)

theorem ranks_globalVariable {d : VariableDecl} (h : d.Sound) (s : Session) :
    Ranks (globalVariable d) [d.initial] s := by
  refine .of_annotated d.name d.initial h.annotation _ fun id t s => ?_
  rw [VariableDecl.initial, ← map_storedValue]
  exact forM_holds (fun e => literalFor_holds id t e) d.value

theorem ranks_localVariable {d : VariableDecl} (h : d.Sound) (s : Session) :
    Ranks (localVariable d) [d.initial] s := by
  refine .of_annotated d.name d.initial h.annotation _ fun id t s => ?_
  rw [VariableDecl.initial, ← map_storedValue]
  exact forM_holds (fun e => valueFor_holds t e) d.value

theorem ranks_constant {d : ConstantDecl} (h : d.Sound) (s : Session) :
    Ranks (constant d) [d.initial] s := by
  refine .of_annotated d.name d.initial h.annotation _ fun id t s => ?_
  rw [ConstantDecl.initial, ← storedValue_eq]
  exact literalFor_holds id t d.value

theorem ranks_pushParameter {f : Field} (h : f.Sound) (s : Session) :
    Ranks (pushParameter f) [f.initial] s :=
  .of_annotated f.name f.initial h.annotation (fun _ _ => pure ())
    fun _ t _ => Ends.pure t.holds_zero

mutual

theorem ranks_stmt : ∀ (st : Stmt) (s : Session), st.Sound → Ranks (stmt st) st.initials s
  | .varDecl d, s, h => by
    rw [stmt, Stmt.initials]
    exact ranks_localVariable h s
  | .constDecl d, s, h => by
    rw [stmt, Stmt.initials]
    exact ranks_constant h s
  | .typeDef d, s, h => by
    rw [Stmt.initials]
    exact .nil _ _
  | .assign target op source, s, h => by
    rw [Stmt.initials]
    exact .nil _ _
  | .expr e, s, h => by
    rw [Stmt.initials]
    exact .nil _ _
  | .branch _ c thenBlock none, s, h => by
    rw [stmt, Stmt.initials]
    exact .before fun _ s₁ => ranks_block thenBlock s₁ h.2
  | .branch _ c thenBlock (some elseBlock), s, h => by
    rw [stmt, Stmt.initials]
    exact .before fun _ s₁ => (ranks_block thenBlock s₁ h.2.1).then fun _ s₂ =>
      ranks_block elseBlock s₂ h.2.2
  | .loop _ c body, s, h => by
    rw [stmt, Stmt.initials]
    exact .before fun _ s₁ => ranks_block body s₁ h.2
  | .ret token result, s, h => by
    rw [Stmt.initials]
    exact .nil _ _
  | .block b, s, h => by
    rw [stmt, Stmt.initials]
    exact ranks_block b s h

theorem ranks_block : ∀ (b : Block) (s : Session), b.Sound → Ranks (block b) b.initials s
  | ⟨_, _, body⟩, s, h => by
    rw [block, Block.initials]
    exact .before fun _ s₁ => (ranks_stmts body s₁ h).after

theorem ranks_stmts : ∀ (body : List Stmt) (s : Session), Stmt.SoundAll body →
    Ranks (stmts body) (Stmt.initialsAll body) s
  | [], s, h => by
    rw [Stmt.initialsAll]
    exact .nil _ _
  | st :: rest, s, h => by
    rw [stmts, Stmt.initialsAll]
    exact (ranks_stmt st s h.1).then fun _ s₁ => ranks_stmts rest s₁ h.2

end

theorem ranks_functionBody {d : FunctionDef} (h : d.Sound) (s : Session) :
    Ranks (functionBody d) d.initials s := by
  have hparams : ∀ s, Ranks (d.params.forM pushParameter) (d.params.map (·.initial)) s := by
    intro s
    rw [List.map_eq_flatMap]
    exact .forM fun f hf => ranks_pushParameter (h.params f hf)
  refine .before fun id _ => .before fun returns _ => .before fun _ _ => .before fun _ s₁ => ?_
  exact (hparams s₁).then fun _ s₂ => (ranks_stmts _ s₂ h.body.body).after

theorem ranks_file {f : SourceFile} (h : ∀ i ∈ f.items, i.Sound) (s : Session) :
    Ranks (file f) (f.functions.flatMap (·.initials)) s :=
  .before fun _ _ => .before fun _ _ =>
    .forM fun d hd => ranks_functionBody (SourceFile.functions_sound h d hd)

end Check

/-! ### Elements that hold their values -/

/-- If the element has an integer type, it has the size of this type, and its value is of the rank of
the type or below and has the magnitude of a literal. -/
def Element.Sits (e : Element) : Prop :=
  ∀ p : Primitive, p.isInteger = true → e.content = .value p.name →
    e.size = p.size ∧ (ValueType.ofInteger e.value).rank ≤ p.rank ∧
      e.value.natAbs ≤ Token.maxInteger

theorem Initial.sits {x : Initial} {e : Element} (hw : x.Writes e) (hr : x.Ranked)
    (hb : x.Bounded) : e.Sits := by
  obtain ⟨us, name, rfl⟩ := hw
  intro p hp hc
  have hid : x.annotation.type.typeId = p.name := Content.value.inj hc
  obtain ⟨ht, hrank⟩ := hr p hp hid
  refine ⟨?_, hrank, hb⟩
  change x.annotation.type.bytes us = p.size
  rw [ht]
  rfl

theorem Element.sits_function (sig : Signature) : (Element.function sig).Sits := by
  intro p hp hc
  cases hc

/-- All globals hold their values. -/
def Tracker.Sits (m : Tracker) : Prop := ∀ e ∈ m.dataSegment, e.Sits

theorem Tracker.Sits.of_eq {m m' : Tracker} (h : m.Sits) (hd : m'.dataSegment = m.dataSegment) :
    m'.Sits := fun e he => h e (hd ▸ he)

namespace Check

variable {s s' : Session}

theorem Grown.sits {b : Binding} {e : Element} (hg : Grown [b] s s') (hs : s.body = none)
    (he : b.holding = .element e) (h : s.memory.Sits) (hsits : e.Sits) :
    s'.memory.Sits ∧ s'.body = none := by
  constructor
  · intro e' he'
    rw [hg.dataSegment hs he] at he'
    rcases List.mem_append.mp he' with he' | he'
    · exact h e' he'
    · exact List.mem_singleton.mp he' ▸ hsits
  · obtain ⟨ps, hps⟩ := hg.body
    simp [hps, hs]

/-- A value that was declared outside of functions. -/
theorem Values.sits {name : Token} {x : Initial} {b : Binding} (hg : Grown [b] s s')
    (hv : Values name (x.annotation.element s.memory.udts name x.value) s s' b) (hs : s.body = none)
    (h : s.memory.Sits) (hr : x.Ranked) (hb : x.Bounded) : s'.memory.Sits ∧ s'.body = none :=
  hg.sits hs hv.holding h (Initial.sits ⟨s.memory.udts, name, rfl⟩ hr hb)

theorem item_sits {i : Item} (hi : i.Sound) (hb : ∀ x ∈ i.initials, x.Bounded) (hs : s.body = none)
    (h : s.memory.Sits) :
    Ends (item i) s (fun _ s' => s'.memory.Sits ∧ s'.body = none) (fun _ s' => s'.memory.Sits) := by
  have hinner : s.body.isSome = false := by simp [hs]
  have hfailed : ∀ (f : SemanticFault) s', Grown [] s s' → s'.memory.Sits :=
    fun _ s' hg => h.of_eq (by rw [hg.memory_eq])
  cases i with
  | function d =>
    refine (functionName_ends d hinner).mono ?_ hfailed
    rintro _ s' ⟨b, hg, _, sig, he, _⟩
    exact hg.sits hs he h (Element.sits_function sig)
  | varDecl d =>
    refine ((globalVariable_ends d hinner).and (ranks_globalVariable hi s)).mono ?_
      fun e s' hf => hfailed e s' hf.1
    rintro _ s' ⟨⟨b, hg, hv⟩, hr⟩
    exact Values.sits hg hv hs h (List.forall_mem_singleton.mp hr) (List.forall_mem_singleton.mp hb)
  | constDecl d =>
    refine ((constant_ends d).and (ranks_constant hi s)).mono ?_ fun e s' hf => hfailed e s' hf.1
    rintro _ s' ⟨⟨b, hg, hv⟩, hr⟩
    exact Values.sits hg hv hs h (List.forall_mem_singleton.mp hr) (List.forall_mem_singleton.mp hb)
  | importFile i => exact Ends.pure ⟨h, hs⟩
  | typeDef d => exact Ends.pure ⟨h, hs⟩

theorem items_sit {is : List Item} (hi : ∀ i ∈ is, i.Sound ∧ ∀ x ∈ i.initials, x.Bounded)
    (hs : s.body = none) (h : s.memory.Sits) :
    Ends (is.forM item) s (fun _ s' => s'.memory.Sits ∧ s'.body = none)
      (fun _ s' => s'.memory.Sits) := by
  induction is generalizing s with
  | nil => exact Ends.pure ⟨h, hs⟩
  | cons i is ih =>
    obtain ⟨⟨hsound, hbounded⟩, hrest⟩ := List.forall_mem_cons.mp hi
    refine (item_sits hsound hbounded hs h).seq (fun _ _ h => h) ?_
    rintro _ s₁ ⟨h₁, hs₁⟩
    exact ih hrest hs₁ h₁

/-- The check of a file, right or not, leaves globals that hold their values. -/
theorem file_sits {f : SourceFile} (hi : ∀ i ∈ f.items, i.Sound ∧ ∀ x ∈ i.initials, x.Bounded)
    (hs : s.body = none) (h : s.memory.Sits) :
    Ends (file f) s (fun _ s' => s'.memory.Sits) (fun _ s' => s'.memory.Sits) := by
  have hshaped : ∀ us s', Shaped us s s' → s'.memory.Sits := by
    intro us s' hus
    exact h.of_eq (by simp [hus.memory, hs, Tracker.grow])
  refine (types_shaped f.types).seq ?_ fun _ s₁ h₁ => ?_
  · rintro _ s' ⟨us, hus⟩
    exact hshaped us s' hus
  refine (items_sit hi (h₁.body.trans hs) (hshaped _ s₁ h₁)).seq (fun _ _ h => h) ?_
  rintro _ s₂ ⟨h₂, hs₂⟩
  exact (functionBodies_dataSegment f.functions hs₂).mono (fun _ _ hd => h₂.of_eq hd)
    (fun _ _ hd => h₂.of_eq hd)

end Check

/-! ### Projects -/

namespace Project

variable {lib : Library} {p q : Project} {file : String} {source : SourceFile} {udts : List Udt}

/-- The elements in the data segment and in the frames of all verified files. -/
def stored (p : Project) : List Element :=
  p.memory.dataSegment ++
    p.verified.flatMap fun v => v.frames.flatMap fun f => f.elements.map (·.element)

/-- No scope is open, and all that is stored holds its value. -/
structure Sits (p : Project) : Prop where
  quiet : Quiet p
  stored : ∀ e ∈ p.stored, e.Sits

theorem Sits.globals (h : Sits p) : p.memory.Sits :=
  fun e he => h.stored e (List.mem_append_left _ he)

/-- Only the data segment and the verified files matter. -/
theorem Sits.of_eq (h : Sits p) (hq : Quiet q) (hm : q.memory.Sits) (hv : q.verified = p.verified) :
    Sits q := by
  refine ⟨hq, fun e he => ?_⟩
  rcases List.mem_append.mp he with he | he
  · exact hm e he
  · exact h.stored e (List.mem_append_right _ (hv ▸ he))

/-- The declarations of a file that can be loaded. -/
theorem load_declares (h : load lib file = .ok source) :
    ∀ i ∈ source.items, i.Sound ∧ ∀ x ∈ i.initials, x.Bounded :=
  fun i hi => ⟨load_sound h i hi, load_bounded h hi⟩

theorem Sits.settled (h : Sits p) (hl : load lib file = .ok source) (udts : List Udt) :
    (p.settled (p.checked file source udts)).memory.Sits := by
  have hstart : (Session.start file (p.storageWith udts) p.names).memory.Sits :=
    h.globals.of_eq (dataSegment_storageWith udts p)
  have hends := Check.file_sits (load_declares hl) rfl hstart
  have hverify : (p.checked file source udts).memory.Sits := by
    unfold checked
    cases hrun : Check.file source (.start file (p.storageWith udts) p.names) with
    | ok u s =>
      rw [verify_of_ok hrun]
      exact hends.ok hrun
    | error f s =>
      rw [verify_of_error hrun]
      exact (hends.error hrun).of_eq (Tracker.dataSegment_closeTo _ _)
  exact hverify.of_eq (Tracker.dataSegment_closeScope _)

/-- The frames of a file that is right hold their values. -/
theorem frames_sit (hq : Quiet p) (hl : load lib file = .ok source) {v : VerifiedFile}
    (hv : (p.checked file source udts).result = .ok v) :
    ∀ f ∈ v.frames, ∀ e ∈ f.elements, e.element.Sits := by
  obtain ⟨s', hrun, rfl⟩ := verify_result_ok hv
  have hbegins : Check.Begins (p.storageWith udts).udts
      (.start file (p.storageWith udts) p.names) :=
    ⟨rfl, (stack_storageWith udts p).trans hq.stack, rfl⟩
  have hframes := (Check.file_framed hbegins hrun).1
  have hranked := (Check.ranks_file (load_sound hl) _).ok hrun
  intro f hf e he
  change f ∈ s'.frames at hf
  rw [hframes] at hf
  obtain ⟨d, hd, rfl⟩ := List.mem_map.mp (by simpa [Session.start] using hf)
  obtain ⟨x, hx, hw⟩ := FunctionDef.frame_writes he
  obtain ⟨i, hi, heq⟩ := List.mem_filterMap.mp hd
  refine x.sits hw (hranked x (List.mem_flatMap.mpr ⟨d, hd, hx⟩)) (load_bounded hl hi x ?_)
  cases i <;> cases heq
  exact hx

theorem Sits.step (h : Sits p) (hs : Step lib p q) : Sits q := by
  have hq : Quiet q := h.quiet.step hs
  rcases hs with hs | hs
  · cases hs with
    | enter hv ha => exact h.of_eq hq h.globals rfl
    | link ha hl hi hv => exact h.of_eq hq h.globals rfl
    | @finish _ _ udts v hr hv =>
      refine ⟨hq, fun e he => ?_⟩
      rcases List.mem_append.mp he with he | he
      · exact h.settled hr.loaded udts e he
      · obtain ⟨w, hw, hmem⟩ := List.mem_flatMap.mp he
        rcases List.mem_append.mp hw with hw | hw
        · exact h.stored e (List.mem_append_right _ (List.mem_flatMap.mpr ⟨w, hw, hmem⟩))
        · rw [List.mem_singleton.mp hw] at hmem
          obtain ⟨f, hf, hmem⟩ := List.mem_flatMap.mp hmem
          obtain ⟨a, ha, rfl⟩ := List.mem_map.mp hmem
          exact frames_sit h.quiet hr.loaded hv f hf a ha
  · cases hs with
    | fail hr hf => exact h.of_eq hq (h.settled hr.loaded _) rfl
    | leave => exact h.of_eq hq h.globals rfl

theorem afterAll_sits (calls : List (Library × String)) : Sits (afterAll calls) := by
  have hempty : Sits empty := ⟨quiet_empty, fun _ he => nomatch he⟩
  refine afterAll_keep hempty (fun lib file p h => ?_) calls
  have hidle : Sits p.idle := h.of_eq (h.quiet.of_eq rfl rfl) h.globals rfl
  exact (after_steps lib file p).1.keep (fun _ _ hp hs => Sits.step hp hs) hidle

end Project

/-! ### Which values fit -/

namespace Element

/-- The value of the element is an integer. -/
def IsInteger (e : Element) : Prop := ∃ p : Primitive, p.isInteger = true ∧ e.content = .value p.name

/-- The value can be read back from the bits of the element, as a signed or as an unsigned number. -/
def Representable (e : Element) : Prop :=
  -2 ^ (8 * e.size - 1) ≤ e.value ∧ e.value < 2 ^ (8 * e.size)

end Element

theorem Primitive.width_of_isInteger {p : Primitive} (h : p.isInteger = true) :
    p.rank = 0 ∧ p.size = 1 ∨ p.rank = 1 ∧ p.size = 2 ∨ p.rank = 2 ∧ p.size = 4 := by
  cases p with
  | string => cases h
  | _ => decide

theorem ValueType.rank_ofInteger_le_zero {v : Int} :
    (ofInteger v).rank ≤ 0 ↔ -128 ≤ v ∧ v ≤ 255 := by
  unfold ofInteger
  grind [Primitive.rank]

theorem ValueType.rank_ofInteger_le_one {v : Int} :
    (ofInteger v).rank ≤ 1 ↔ -32768 ≤ v ∧ v ≤ 65535 := by
  unfold ofInteger
  grind [Primitive.rank]

/-- The first two ranks hold just the numbers of one and of two bytes. Of the last rank are all others, so
there the scanner alone bounds the magnitude, also where a sign stands in front. -/
theorem Element.Sits.representable_iff {e : Element} (h : e.Sits) (hi : e.IsInteger) :
    (e.Representable ↔ -2 ^ 31 ≤ e.value) ∧
      (¬ e.Representable → e.size = 4 ∧ -2 ^ 32 < e.value) := by
  obtain ⟨p, hp, hc⟩ := hi
  obtain ⟨hsize, hrank, hmax⟩ := h p hp hc
  unfold Token.maxInteger at hmax
  unfold Representable
  rcases Primitive.width_of_isInteger hp with ⟨hr, hs⟩ | ⟨hr, hs⟩ | ⟨hr, hs⟩
  · rw [hr, ValueType.rank_ofInteger_le_zero] at hrank
    rw [hsize, hs]
    omega
  · rw [hr, ValueType.rank_ofInteger_le_one] at hrank
    rw [hsize, hs]
    omega
  · rw [hsize, hs]
    omega

/-- An integer that is stored fits into its element unless it is below the signed numbers of 32 bits.
After any attempts to compile any files of any libraries, let an element of an integer type be in the data
segment or in a frame. Its value can be read back from its bits, as a signed or as an unsigned number, if
and only if it is at least the smallest signed number of 32 bits; what cannot be read back is in an
element of four bytes and negative, with a magnitude of 32 bits. -/
theorem stored_representable_iff (calls : List (Library × String)) {e : Element}
    (he : e ∈ (Project.afterAll calls).stored) (hi : e.IsInteger) :
    (e.Representable ↔ -2 ^ 31 ≤ e.value) ∧
      (¬ e.Representable → e.size = 4 ∧ -2 ^ 32 < e.value) :=
  ((Project.afterAll_sits calls).stored e he).representable_iff hi

/-- A library with numbers at the limits of their types, in the data segment and in a frame. -/
def extremeNumbers : Library :=
  .ofTexts [("main", "var a: u8 = 255; const b: s8 = -(-(-128)); fn f(p: u16) \x7b " ++
    "var c: s32 = -2147483648; const d: u32 = -4294967295; \x7d")]

/-- The number `d` does not fit into its element, and `c` just does. -/
theorem stored_representable_iff_extremeNumbers :
    ∃ c d, c ∈ (Project.afterAll [(extremeNumbers, "main")]).stored ∧
      d ∈ (Project.afterAll [(extremeNumbers, "main")]).stored ∧ c.IsInteger ∧ d.IsInteger ∧
      c.value = -2147483648 ∧ c.Representable ∧ d.value = -4294967295 ∧ ¬ d.Representable ∧
      d.size = 4 := by
  have hc : .named "c" "s32" 4 (-2147483648) ∈
      (Project.afterAll [(extremeNumbers, "main")]).stored := by decide +kernel
  have hd : .named "d" "u32" 4 (-4294967295) ∈
      (Project.afterAll [(extremeNumbers, "main")]).stored := by decide +kernel
  obtain ⟨hfits, _⟩ := stored_representable_iff _ hc ⟨.s32, rfl, rfl⟩
  obtain ⟨hfails, _⟩ := stored_representable_iff _ hd ⟨.u32, rfl, rfl⟩
  exact ⟨_, _, hc, hd, ⟨.s32, rfl, rfl⟩, ⟨.u32, rfl, rfl⟩, rfl, hfits.mpr (by decide), rfl,
    fun h => absurd (hfails.mp h) (by decide), rfl⟩

end StoragePlan
