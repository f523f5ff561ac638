import StoragePlan.Proofs.Twins

/-!
The check of a body from twins. Declarations, statements and functions are walked one by one. What a body
declares are values and types, whose handles may differ from one run to the other; the outlines of the
symbols do not, and no later step looks further.
-/

namespace StoragePlan

namespace Check

variable {q : Prop} {s₀ t₀ s t : Session} {α β : Type} {Q : β → Prop}

/-! ### Small steps -/

theorem repeats_requireNew (id : String) (p : Position) :
    Repeats q s₀ t₀ (requireNew id p) fun _ => True :=
  .same (fun _ _ h => echoes_requireNew h id p) (notes_requireNew id p)
    fun _ => tells_requireNew id p

theorem repeats_requireRoom (id : String) (size : Nat) (p : Position) :
    Repeats q s₀ t₀ (requireRoom id size p) fun _ => True := by
  have hnotes : Notes (requireRoom id size p) := .of_eq fun _ =>
    (requireRoom_ends id size p).mono (fun _ _ h => h.1) fun _ _ h => h.1
  exact .same (fun _ _ h => echoes_requireRoom h id size p) hnotes
    fun _ => tells_requireRoom id size p

theorem repeats_resolve {a : Annotation} (ha : q → a.Sound) :
    Repeats q s₀ t₀ (resolve a) ValueType.Plain :=
  .same (fun _ _ h => echoes_resolve h a) (notes_resolve a) fun hq => tells_resolve (ha hq)

theorem repeats_sizeOf (ty : ValueType) (p : Position) :
    Repeats q s₀ t₀ (sizeOf ty p) fun _ => True :=
  .same (fun _ _ h => echoes_sizeOf h ty p) (notes_sizeOf ty p) fun _ => tells_sizeOf ty p

/-- The two runs may give a type different handles. -/
theorem parallels_intern {ty : ValueType} (h : q → ty.Plain) (p : Position) :
    Parallels q s₀ t₀ (intern ty p) (intern ty p) fun _ _ => True := by
  have hsteady := (notes_intern ty p).steady
  have htells : q → Tells (intern ty p) (fun _ => True) [] [] := fun hq => tells_intern (h hq) p
  refine (Parallels.quiet (R := fun _ _ => True) (fun s t hA => ?_) hsteady hsteady htells htells).mono
    fun _ _ _ => trivial
  exact (echoes_intern hA ty p).mono fun _ _ _ _ hA' => ⟨trivial, hA'⟩

/-- Both runs declare a value or a type, perhaps with different handles. -/
theorem parallels_declare {x y : Symbol} (h : y.outline = x.outline) (hx : ∀ n, x.Within n) :
    Parallels q s₀ t₀ (declare x) (declare y) fun _ _ => True := by
  have hsteady : ∀ z : Symbol, z.outline = x.outline → Steady (declare z) := by
    intro z hz
    refine Steady.modify fun n s hw => ⟨rfl, ?_⟩
    rw [Registry.outline_addSymbol]
    exact hw.onTable fun t ht => ht.add (hz ▸ Symbol.within_outline.mpr (hx n))
  refine Parallels.modify (fun s t hA => ⟨hA.file, hA.memory, ?_, hA.body⟩) (hsteady x rfl)
    (hsteady y h) (fun _ => tells_declare x) fun _ => tells_declare y
  simp only [Registry.outline_addSymbol, hA.outline, hA.file, h]

theorem parallels_addField (id name : String) (h h' : Handle) :
    Parallels q s₀ t₀ (onNames (Registry.addField · id ⟨name, h⟩))
      (onNames (Registry.addField · id ⟨name, h'⟩)) fun _ _ => True := by
  have hsteady : ∀ k : Handle, Steady (onNames (Registry.addField · id ⟨name, k⟩)) := by
    intro k
    refine Steady.modify fun n s hw => ⟨Registry.types_addField _ id, ?_⟩
    rwa [Registry.outline_addField]
  have htells : ∀ k : Handle, q →
      Tells (onNames (Registry.addField · id ⟨name, k⟩)) (fun _ => True) [] [] :=
    fun k _ => tells_onNames fun file r => Registry.types_addField _ id
  refine Parallels.modify (fun s t hA => ⟨hA.file, hA.memory, ?_, hA.body⟩) (hsteady h) (hsteady h')
    (htells h) (htells h')
  rw [Registry.outline_addField, Registry.outline_addField, hA.outline]

theorem repeats_onMemory {g : Tracker → Tracker} (hg : q → ∀ m, m.Legible → (g m).Legible) :
    Repeats q s₀ t₀ (onMemory g) fun _ => True :=
  .modify (fun _ _ h => ⟨h.file, congrArg g h.memory, h.outline, h.body⟩)
    (.modify fun _ _ hw => ⟨rfl, hw⟩) fun hq => tells_onMemory (hg hq)

theorem repeats_openScope : Repeats q s₀ t₀ openScope fun _ => True := by
  refine (repeats_onMemory fun _ _ hm => hm.openScope).bind fun _ _ => ?_
  refine Repeats.modify (fun s t h => ⟨h.file, h.memory, ?_, h.body⟩)
    (.modify fun n s hw => ⟨rfl, ?_⟩) fun _ => tells_onNames fun _ _ => rfl
  · simp only [Registry.outline_openScope, h.outline, h.file]
  · rw [Registry.outline_openScope]
    exact hw.onTable fun t ht => ht.openScope

theorem repeats_closeScope : Repeats q s₀ t₀ closeScope fun _ => True := by
  refine Repeats.modify (fun s t h => ⟨h.file, ?_, ?_, ?_⟩) (.modify fun n s hw => ⟨rfl, ?_⟩)
    fun _ => tells_closeScope
  · simp only [h.memory]
  · simp only [Registry.outline_closeScope, h.outline, h.file]
  · simp only [h.body, h.memory]
  · simp only [Registry.outline_closeScope]
    exact hw.onTable fun t ht => ht.closeScope

/-! ### Types -/

theorem repeats_typeName (d : TypeDef) : Repeats q s₀ t₀ (typeName d) fun _ => True := by
  refine (repeats_name d.name).bind fun id _ => (repeats_requireNew id _).bind fun _ _ => ?_
  refine Parallels.get fun s t hT => ?_
  rw [hT.memory]
  split
  · exact Repeats.fail _ _ s t hT
  · exact Repeats.of_parallels (parallels_declare rfl fun n args returns hk => by cases hk) s t hT

theorem repeats_typeFields (id : String) {fs : List Field} (hfs : q → ∀ f ∈ fs, f.Sound)
    {known : List Member} (hk : q → ∀ m ∈ known, (ValueType.ofId m.typeId).Plain) :
    Repeats q s₀ t₀ (typeFields id known fs)
      fun ms => ∀ m ∈ ms, (ValueType.ofId m.typeId).Plain := by
  induction fs generalizing known with
  | nil => exact .pure hk
  | cons f fs ih =>
    refine (repeats_name f.name).bind fun name _ => ?_
    split
    · exact .fail _ _
    · refine (repeats_resolve fun hq => ?_).bind fun ty hty => ?_
      · exact Field.Sound.annotation (hfs hq f List.mem_cons_self)
      refine Parallels.bind (parallels_intern hty _) fun h h' _ => ?_
      refine Parallels.bind (parallels_addField id name h h') fun _ _ _ => ?_
      refine ih (fun hq g hg => hfs hq g (List.mem_cons_of_mem _ hg)) fun hq m hm => ?_
      rcases List.mem_append.mp hm with hm | hm
      · exact hk hq m hm
      · rw [List.mem_singleton.mp hm]
        exact (ValueType.ofId_typeId (hty hq)).symm ▸ hty hq

theorem repeats_typeBody {d : TypeDef} (hd : q → d.Sound) :
    Repeats q s₀ t₀ (typeBody d) fun _ => True := by
  refine (repeats_name d.name).bind fun id _ => ?_
  refine (repeats_typeFields id (fun hq => (hd hq).fields) (by simp)).bind fun fields hf => ?_
  refine Repeats.modify (fun s t h => ⟨h.file, ?_, h.outline, h.body⟩)
    (.modify fun _ _ hw => ⟨rfl, hw⟩) fun hq => tells_addType (hf hq)
  simp only [h.memory]

theorem repeats_typeSize (d : TypeDef) : Repeats q s₀ t₀ (typeSize d) fun _ => True := by
  refine (repeats_name d.name).bind fun id _ => (repeats_sizeOf _ _).bind fun _ _ => ?_
  exact .pure fun _ => trivial

theorem repeats_types {ds : List TypeDef} (hds : q → ∀ d ∈ ds, d.Sound) :
    Repeats q s₀ t₀ (types ds) fun _ => True := by
  refine (Repeats.forM fun d _ => repeats_typeName d).bind fun _ _ => ?_
  refine (Repeats.forM fun d hd => repeats_typeBody fun hq => hds hq d hd).bind fun _ _ => ?_
  exact Repeats.forM fun d _ => repeats_typeSize d

/-! ### Variables and constants -/

/-- A declaration of a value, up to its initializer. -/
theorem repeats_announced {name : Token} {a : Annotation} (ha : q → a.Sound)
    {f : String → ValueType → Nat → Check β}
    (hf : ∀ id ty n, (q → ty.Plain) → Repeats q s₀ t₀ (f id ty n) Q) :
    Repeats q s₀ t₀ (do
      let id ← ofExcept (nameOf name)
      requireNew id name.position
      let ty ← resolve a
      let n ← sizeOf ty a.position
      f id ty n) Q := by
  refine (repeats_name name).bind fun id _ => (repeats_requireNew id _).bind fun _ _ => ?_
  refine (repeats_resolve ha).bind fun ty hty => (repeats_sizeOf ty _).bind fun n _ => ?_
  exact hf id ty n hty

theorem repeats_literalFor (id : String) (target : ValueType) (init : Expr) :
    Repeats q s₀ t₀ (literalFor id target init) fun _ => True := by
  unfold literalFor
  split
  · refine (repeats_expr _).bind fun ty _ => ?_
    split
    · exact .pure fun _ => trivial
    · exact .fail _ _
  · exact .fail _ _

theorem repeats_valueFor (target : ValueType) (init : Expr) :
    Repeats q s₀ t₀ (valueFor target init) fun _ => True := by
  refine (repeats_value init).bind fun ty _ => ?_
  split
  · exact .pure fun _ => trivial
  · exact .fail _ _

theorem repeats_declareValue {ty : ValueType} (hty : q → ty.Plain) (id : String)
    {kind : Handle → SymbolKind} (hk : kind = .var ∨ kind = .const) (exported : Bool) (p : Position)
    (size : Nat) (v : Int) :
    Repeats q s₀ t₀ (declareValue id kind exported p ty size v) Element.Legible := by
  refine (repeats_requireRoom id size p).bind fun _ _ => ?_
  refine Parallels.bind (parallels_intern hty p) fun h h' _ => ?_
  have hdeclare : Parallels q s₀ t₀ (declare ⟨id, kind h, exported, p⟩)
      (declare ⟨id, kind h', exported, p⟩) fun _ _ => True := by
    rcases hk with rfl | rfl
    · exact parallels_declare rfl fun n args returns hk => by cases hk
    · exact parallels_declare rfl fun n args returns hk => by cases hk
  refine Parallels.bind hdeclare fun _ _ _ => ?_
  exact Repeats.pure fun hq => Element.legible_named (hty hq) id size v

theorem repeats_push {e : Element} (he : q → e.Legible) :
    Repeats q s₀ t₀ (onMemory (·.push e)) fun _ => True :=
  repeats_onMemory fun hq _ hm => hm.push (he hq)

theorem repeats_localVariable {d : VariableDecl} (hd : q → d.Sound) :
    Repeats q s₀ t₀ (localVariable d) fun _ => True := by
  refine repeats_announced (fun hq => VariableDecl.Sound.annotation (hd hq)) fun id ty n hty => ?_
  refine (Repeats.forM_option (repeats_valueFor ty) d.value).bind fun _ _ => ?_
  exact (repeats_declareValue hty id (.inl rfl) _ _ n _).bind fun e he => repeats_push he

theorem repeats_constant {d : ConstantDecl} (hd : q → d.Sound) :
    Repeats q s₀ t₀ (constant d) fun _ => True := by
  refine repeats_announced (fun hq => ConstantDecl.Sound.annotation (hd hq)) fun id ty n hty => ?_
  refine (repeats_literalFor id ty d.value).bind fun _ _ => ?_
  refine (repeats_declareValue hty id (.inr rfl) _ _ n _).bind fun e he => ?_
  refine Parallels.get fun s t hT => ?_
  rw [hT.body]
  split
  · exact repeats_push he s t hT
  · exact repeats_onMemory (fun hq _ hm => hm.insert (he hq)) s t hT

theorem repeats_pushParameter {f : Field} (hf : q → f.Sound) :
    Repeats q s₀ t₀ (pushParameter f) fun _ => True := by
  refine repeats_announced (fun hq => Field.Sound.annotation (hf hq)) fun id ty n hty => ?_
  exact (repeats_declareValue hty id (.inl rfl) _ _ n _).bind fun e he => repeats_push he

/-! ### Statements -/

theorem repeats_condition (e : Expr) : Repeats q s₀ t₀ (condition e) fun _ => True := by
  refine (repeats_value e).bind fun ty _ => ?_
  split
  · exact .pure fun _ => trivial
  · exact .fail _ _

theorem parallels_isConstant (id : String) :
    Parallels q s₀ t₀ (lookup? id) (lookup? id) fun a b => isConstant b = isConstant a := by
  intro s t hT
  refine (echoes_lookup? hT.toAlike id).mono ?_
  rintro a b s t ⟨ho, rfl, rfl⟩
  have hconstant : isConstant b = isConstant a := by
    rw [← isConstant_outline b, ho, isConstant_outline]
  exact ⟨hconstant, hT⟩

theorem repeats_assignment (target : Expr) (op : Token) (source : Expr) :
    Repeats q s₀ t₀ (assignment target op source) fun _ => True := by
  refine (repeats_value target).bind fun ty _ => ?_
  refine (repeats_ofExcept fun _ _ _ => trivial).bind fun root _ => ?_
  refine (repeats_name root).bind fun id _ => ?_
  refine Parallels.bind (parallels_isConstant id) fun a b hab => ?_
  rw [hab]
  split
  · exact Repeats.fail _ _
  · refine (repeats_value source).bind fun v _ => ?_
    split
    · exact .pure fun _ => trivial
    · exact .fail _ _

theorem repeats_ret (token : Token) (result : Option Expr) :
    Repeats q s₀ t₀ (ret token result) fun _ => True := by
  refine Parallels.get fun s t hT => ?_
  rw [hT.body]
  split
  · exact Repeats.fail _ _ s t hT
  · split
    · exact Repeats.pure (fun _ => trivial) s t hT
    · exact Repeats.fail _ _ s t hT
    · exact Repeats.fail _ _ s t hT
    · refine Repeats.bind (repeats_value _) (fun found _ => ?_) s t hT
      split
      · exact .pure fun _ => trivial
      · exact .fail _ _

mutual

theorem repeats_stmt : ∀ st : Stmt, (q → st.Sound) → Repeats q s₀ t₀ (stmt st) fun _ => True
  | .varDecl d, hst => by
    rw [stmt]
    exact repeats_localVariable fun hq => by simpa only [Stmt.Sound] using hst hq
  | .constDecl d, hst => by
    rw [stmt]
    exact repeats_constant fun hq => by simpa only [Stmt.Sound] using hst hq
  | .typeDef d, hst => by
    rw [stmt]
    exact repeats_types fun hq => by simpa [Stmt.Sound] using hst hq
  | .assign target op source, _ => by
    rw [stmt]
    exact repeats_assignment target op source
  | .expr e, _ => by
    rw [stmt]
    exact (repeats_expr e).bind fun _ _ => .pure fun _ => trivial
  | .branch token c thenBlock none, hst => by
    simp only [Stmt.Sound] at hst
    rw [stmt]
    refine (repeats_condition c).bind fun _ _ => ?_
    exact repeats_block thenBlock fun hq => (hst hq).2
  | .branch token c thenBlock (some elseBlock), hst => by
    simp only [Stmt.Sound] at hst
    rw [stmt]
    refine (repeats_condition c).bind fun _ _ => ?_
    refine (repeats_block thenBlock fun hq => (hst hq).2.1).bind fun _ _ => ?_
    exact repeats_block elseBlock fun hq => (hst hq).2.2
  | .loop token c body, hst => by
    simp only [Stmt.Sound] at hst
    rw [stmt]
    refine (repeats_condition c).bind fun _ _ => ?_
    exact repeats_block body fun hq => (hst hq).2
  | .ret token result, _ => by
    rw [stmt]
    exact repeats_ret token result
  | .block b, hst => by
    simp only [Stmt.Sound] at hst
    rw [stmt]
    exact repeats_block b hst

theorem repeats_block : ∀ b : Block, (q → b.Sound) → Repeats q s₀ t₀ (block b) fun _ => True
  | ⟨opening, closing, body⟩, hb => by
    simp only [Block.Sound] at hb
    rw [block]
    refine repeats_openScope.bind fun _ _ => (repeats_stmts body hb).bind fun _ _ => ?_
    exact repeats_closeScope

theorem repeats_stmts : ∀ body : List Stmt, (q → Stmt.SoundAll body) →
    Repeats q s₀ t₀ (stmts body) fun _ => True
  | [], _ => by
    rw [stmts]
    exact .pure fun _ => trivial
  | st :: rest, hbody => by
    simp only [Stmt.SoundAll] at hbody
    rw [stmts]
    refine (repeats_stmt st fun hq => (hbody hq).1).bind fun _ _ => ?_
    exact repeats_stmts rest fun hq => (hbody hq).2

end

/-! ### Functions -/

theorem repeats_entering {d : FunctionDef} (hd : q → d.Sound) :
    Repeats q s₀ t₀ (entering d d.params) fun _ => True := by
  have hreturns : Repeats q s₀ t₀ (d.returns.mapM resolve) fun _ => True := by
    cases h : d.returns with
    | none => exact .pure fun _ => trivial
    | some a => exact (repeats_resolve fun hq => (hd hq).returns a h).map fun _ _ => trivial
  refine (repeats_name d.name).bind fun id _ => hreturns.bind fun returns _ => ?_
  refine Repeats.bind (P := fun _ => True) ?_ fun _ _ => repeats_openScope.bind fun _ _ => ?_
  · refine Repeats.modify (fun s t h => ⟨h.file, h.memory, h.outline, rfl⟩)
      (.modify fun _ _ hw => ⟨rfl, hw⟩) fun _ => ?_
    exact .modify fun s hs => ⟨⟨hs.memory, hs.types, hs.udts⟩, rfl, rfl⟩
  refine (Repeats.forM fun f hf => repeats_pushParameter fun hq => (hd hq).params f hf).bind
    fun _ _ => ?_
  exact .pure fun _ => trivial

theorem repeats_leaving (d : FunctionDef) (r : String × Option ValueType) :
    Repeats q s₀ t₀ (leaving d r) fun _ => True := by
  unfold leaving
  split
  · exact .fail _ _
  · refine repeats_closeScope.bind fun _ _ => ?_
    refine Repeats.modify (fun s t h => ⟨h.file, h.memory, h.outline, rfl⟩)
      (.modify fun _ _ hw => ⟨rfl, hw⟩) fun _ => ?_
    exact .modify fun s hs => ⟨⟨hs.memory, hs.types, hs.udts⟩, rfl, rfl⟩

/-- From twins the check of a function fails with the same fault or leads to twins. -/
theorem repeats_functionBody {d : FunctionDef} (hd : q → d.Sound) :
    Repeats q s₀ t₀ (functionBody d) fun _ => True := by
  rw [functionBody_eq]
  refine (repeats_entering hd).bind fun r _ => ?_
  refine (repeats_stmts d.body.body fun hq => (hd hq).body.body).bind fun _ _ => ?_
  exact repeats_leaving d r

end Check

end StoragePlan
