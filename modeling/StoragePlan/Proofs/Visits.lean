import StoragePlan.Proofs.Recording

/-!
The check of a sound file visits every node once: first the initializers of globals, then the bodies of
functions, each in the order of the text. Declarations and statements are walked one by one; what they
declare is of types that can be read back, because their annotations are sound.
-/

namespace StoragePlan

namespace Check

variable {α β : Type} {s : Session}

/-! ### Small steps -/

theorem tells_requireNew (id : String) (p : Position) :
    Tells (requireNew id p) (fun _ => True) [] [] :=
  .still fun _ _ => (requireNew_ends id p).mono (fun _ _ h => ⟨h.1, trivial⟩) fun _ _ h => h.1

theorem tells_requireRoom (id : String) (size : Nat) (p : Position) :
    Tells (requireRoom id size p) (fun _ => True) [] [] :=
  .still fun _ _ => (requireRoom_ends id size p).mono (fun _ _ h => ⟨h.1, trivial⟩) fun _ _ h => h.1

theorem tells_sizeOf (t : ValueType) (p : Position) : Tells (sizeOf t p) (fun _ => True) [] [] :=
  .still fun _ _ => (sizeOf_ends t p).mono (fun _ _ h => ⟨h.1, trivial⟩) fun _ _ h => h.1

/-- A sound annotation stands for a type that can be read back. -/
theorem tells_resolve {a : Annotation} (ha : a.Sound) : Tells (resolve a) ValueType.Plain [] [] :=
  .still fun _ _ => (resolve_ends a).mono (fun _ _ h => ⟨h.1, h.2.plain ha⟩) fun _ _ h => h.1

theorem tells_intern {t : ValueType} (ht : t.Plain) (p : Position) :
    Tells (intern t p) (fun _ => True) [] [] := by
  intro s hs
  refine (intern_ends t p).mono ?_ fun _ _ h => h.1 ▸ hs
  rintro h _ ⟨types, rfl, hi⟩
  have htidy := (hs.types.intern? ht hi).1
  exact ⟨trivial, [], rfl, .quiet ⟨hs.memory, htidy, hs.udts⟩ (TypeTable.intern?_grown hi).1 rfl⟩

theorem tells_onMemory {g : Tracker → Tracker} (hg : ∀ m, m.Legible → (g m).Legible) :
    Tells (onMemory g) (fun _ => True) [] [] :=
  .modify fun s hs => ⟨⟨hg s.memory hs.memory, hs.types, hs.udts⟩, rfl, rfl⟩

theorem tells_onNames {g : String → Registry → Registry} (hg : ∀ file r, (g file r).types = r.types) :
    Tells (onNames g) (fun _ => True) [] [] :=
  .modify fun s hs => ⟨⟨hs.memory, (hg s.file s.names).symm ▸ hs.types, hs.udts⟩, hg _ _, rfl⟩

theorem tells_declare (symbol : Symbol) : Tells (declare symbol) (fun _ => True) [] [] :=
  tells_onNames fun _ _ => rfl

/-! ### Types -/

theorem tells_typeName (d : TypeDef) : Tells (typeName d) (fun _ => True) [] [] := by
  refine (tells_name d.name).after [] fun id _ => (tells_requireNew id _).after [] fun _ _ => ?_
  refine .get fun s _ => ?_
  split
  · exact Tells.fail _ _ s
  · exact tells_declare _ s

theorem tells_typeFields (id : String) {fs : List Field} (hfs : ∀ f ∈ fs, f.Sound)
    {known : List Member} (hk : ∀ m ∈ known, (ValueType.ofId m.typeId).Plain) :
    Tells (typeFields id known fs) (fun ms => ∀ m ∈ ms, (ValueType.ofId m.typeId).Plain) [] [] := by
  induction fs generalizing known with
  | nil => exact .pure hk
  | cons f fs ih =>
    rw [List.forall_mem_cons] at hfs
    refine (tells_name f.name).after [] fun name _ => ?_
    split
    · exact .fail _ _
    · have hannotation := Field.Sound.annotation hfs.1
      refine (tells_resolve hannotation).after [] fun t ht => ?_
      refine (tells_intern ht _).after [] fun h _ => ?_
      refine (tells_onNames fun file r => Registry.types_addField _ id).after [] fun _ _ => ?_
      refine ih hfs.2 fun m hm => ?_
      rcases List.mem_append.mp hm with hm | hm
      · exact hk m hm
      · rw [List.mem_singleton.mp hm]
        exact (ValueType.ofId_typeId ht).symm ▸ ht

theorem tells_addType {u : Udt} (hu : u.Legible) :
    Tells (modify fun s => { s with
      memory := s.memory.addUdt u
      udts := if s.body.isNone then s.udts ++ [u] else s.udts }) (fun _ => True) [] [] := by
  refine .modify fun s hs => ⟨⟨hs.memory.addUdt hu, hs.types, ?_⟩, rfl, rfl⟩
  intro v hv
  split at hv
  · rcases List.mem_append.mp hv with hv | hv
    · exact hs.udts v hv
    · rw [List.mem_singleton.mp hv]
      exact hu
  · exact hs.udts v hv

theorem tells_typeBody {d : TypeDef} (hd : d.Sound) : Tells (typeBody d) (fun _ => True) [] [] := by
  refine (tells_name d.name).after [] fun id _ => ?_
  refine (tells_typeFields id hd.fields (by simp)).after [] fun fields hf => ?_
  exact tells_addType hf

theorem tells_typeSize (d : TypeDef) : Tells (typeSize d) (fun _ => True) [] [] := by
  refine (tells_name d.name).after [] fun id _ => (tells_sizeOf _ _).after [] fun _ _ => ?_
  exact .pure trivial

theorem tells_types {ds : List TypeDef} (hds : ∀ d ∈ ds, d.Sound) :
    Tells (types ds) (fun _ => True) [] [] := by
  refine (Tells.forM fun d _ => tells_typeName d).after [] fun _ _ => ?_
  refine (Tells.forM fun d hd => tells_typeBody (hds d hd)).after [] fun _ _ => ?_
  exact Tells.forM fun d _ => tells_typeSize d

/-! ### Variables and constants -/

/-- A declaration of a value, up to its initializer. -/
theorem tells_announced {name : Token} {a : Annotation} (ha : a.Sound) {Q : β → Prop}
    {f : String → ValueType → Nat → Check β} (cs : List (Check Task)) {ns : List Expr}
    (hf : ∀ id t n, t.Plain → Tells (f id t n) Q cs ns) :
    Tells (do
      let id ← ofExcept (nameOf name)
      requireNew id name.position
      let t ← resolve a
      let n ← sizeOf t a.position
      f id t n) Q (cs.map fun c => do announce name a; c) ns := by
  have hcalls : (cs.map fun c => do announce name a; c) = cs.map (fun c => do
      let id ← ofExcept (nameOf name)
      requireNew id name.position
      let t ← resolve a
      let _ ← sizeOf t a.position
      c) := by
    simp [announce]
  rw [hcalls]
  refine (tells_name name).leading fun id _ => (tells_requireNew id _).leading fun _ _ => ?_
  refine (tells_resolve ha).leading fun t ht => (tells_sizeOf t _).leading fun n _ => ?_
  rw [List.map_id']
  exact hf id t n ht

/-- An initializer that has to be a literal is only visited if it is one. -/
def literalCalls : Expr → List (Check Task)
  | .literal id token => [Pure.pure (.expr (.literal id token))]
  | _ => []

theorem initializerCalls_literal (name : Token) (a : Annotation) (init : Option Expr) :
    initializerCalls true name a init =
      (init.toList.flatMap literalCalls).map (fun c => do announce name a; c) := by
  cases init with
  | none => rfl
  | some e => cases e <;> rfl

theorem initializerCalls_value (name : Token) (a : Annotation) (init : Option Expr) :
    initializerCalls false name a init =
      (init.toList.flatMap fun e => [Pure.pure (.expr e)]).map (fun c => do announce name a; c) := by
  cases init <;> rfl

theorem tells_literalFor (id : String) (target : ValueType) (init : Expr) :
    Tells (literalFor id target init) (fun _ => True) (literalCalls init) init.nodes := by
  unfold literalFor
  split
  · refine (tells_expr _).before fun t _ => ?_
    split
    · exact .pure trivial
    · exact .fail _ _
  · exact .fail _ _

theorem tells_valueFor (target : ValueType) (init : Expr) :
    Tells (valueFor target init) (fun _ => True) [Pure.pure (.expr init)] init.nodes := by
  refine (tells_value init).before fun t _ => ?_
  split
  · exact .pure trivial
  · exact .fail _ _

theorem tells_optional {g : Expr → Check PUnit} {k : Expr → List (Check Task)}
    (hg : ∀ e, Tells (g e) (fun _ => True) (k e) e.nodes) (init : Option Expr) :
    Tells (init.forM g) (fun _ => True) (init.toList.flatMap k) (Expr.nodesAll init.toList) := by
  cases init with
  | none => exact .pure trivial
  | some e => simpa [Expr.nodesAll] using hg e

theorem tells_declareValue {t : ValueType} (ht : t.Plain) (id : String) (kind : Handle → SymbolKind)
    (exported : Bool) (p : Position) (size : Nat) (v : Int) :
    Tells (declareValue id kind exported p t size v) Element.Legible [] [] := by
  refine (tells_requireRoom id size p).after [] fun _ _ => ?_
  refine (tells_intern ht p).after [] fun h _ => (tells_declare _).after [] fun _ _ => ?_
  exact .pure (Element.legible_named ht id size v)

theorem tells_insert {e : Element} (he : e.Legible) :
    Tells (onMemory (·.insert e)) (fun _ => True) [] [] := tells_onMemory fun _ hm => hm.insert he

theorem tells_push {e : Element} (he : e.Legible) :
    Tells (onMemory (·.push e)) (fun _ => True) [] [] := tells_onMemory fun _ hm => hm.push he

theorem tells_globalVariable {d : VariableDecl} (hd : d.Sound) :
    Tells (globalVariable d) (fun _ => True) (initializerCalls true d.name d.annotation d.value)
      (Expr.nodesAll d.value.toList) := by
  rw [initializerCalls_literal]
  refine tells_announced hd.annotation _ fun id t n ht => ?_
  refine (tells_optional (tells_literalFor id t) d.value).before fun _ _ => ?_
  exact (tells_declareValue ht id _ _ _ n _).after [] fun e he => tells_insert he

theorem tells_localVariable {d : VariableDecl} (hd : d.Sound) :
    Tells (localVariable d) (fun _ => True) (initializerCalls false d.name d.annotation d.value)
      (Expr.nodesAll d.value.toList) := by
  rw [initializerCalls_value]
  refine tells_announced hd.annotation _ fun id t n ht => ?_
  refine (tells_optional (tells_valueFor t) d.value).before fun _ _ => ?_
  exact (tells_declareValue ht id _ _ _ n _).after [] fun e he => tells_push he

theorem tells_constant {d : ConstantDecl} (hd : d.Sound) :
    Tells (constant d) (fun _ => True)
      (initializerCalls true d.name d.annotation (some d.value)) d.value.nodes := by
  rw [initializerCalls_literal]
  refine tells_announced hd.annotation _ fun id t n ht => ?_
  rw [Option.toList_some, List.flatMap_singleton]
  refine (tells_literalFor id t d.value).before fun _ _ => ?_
  refine (tells_declareValue ht id _ _ _ n _).after [] fun e he => .get fun s _ => ?_
  split
  · exact tells_push he s
  · exact tells_insert he s

theorem tells_pushParameter {f : Field} (hf : f.Sound) :
    Tells (pushParameter f) (fun _ => True) [] [] := by
  refine tells_announced hf.annotation [] fun id t n ht => ?_
  exact (tells_declareValue ht id _ _ _ n _).after [] fun e he => tells_push he

/-! ### Functions -/

theorem tells_parameter {f : Field} (hf : f.Sound) : Tells (parameter f) (fun _ => True) [] [] := by
  refine (tells_name f.name).after [] fun id _ => (tells_resolve hf.annotation).after [] fun t ht => ?_
  exact (tells_intern ht _).after [] fun h _ => .pure trivial

theorem tells_parameters {fs : List Field} (hfs : ∀ f ∈ fs, f.Sound) :
    Tells (fs.mapM parameter) (fun _ => True) [] [] := by
  induction fs with
  | nil => exact .pure trivial
  | cons f fs ih =>
    rw [List.forall_mem_cons] at hfs
    rw [List.mapM_cons]
    refine (tells_parameter hfs.1).after [] fun p _ => (ih hfs.2).after [] fun ps _ => ?_
    exact .pure trivial

theorem tells_returnType {a : Option Annotation} (ha : ∀ b ∈ a, b.Sound) :
    Tells (a.mapM returnType) (fun r => ∀ h ∈ r, (ValueType.ofId h.2).Plain) [] [] := by
  cases a with
  | none => exact .pure (by simp)
  | some a =>
    have hone : Tells (returnType a) (fun r => (ValueType.ofId r.2).Plain) [] [] := by
      refine (tells_resolve (ha a rfl)).after [] fun t ht => (tells_intern ht _).after [] fun h _ => ?_
      exact .pure ((ValueType.ofId_typeId ht).symm ▸ ht)
    refine hone.map fun r hr h hh => ?_
    cases hh
    exact hr

theorem tells_functionName {d : FunctionDef} (hd : d.Sound) :
    Tells (functionName d) (fun _ => True) [] [] := by
  refine (tells_name d.name).after [] fun id _ => (tells_requireNew id _).after [] fun _ _ => ?_
  refine (tells_parameters hd.params).after [] fun params _ => ?_
  refine (tells_returnType hd.returns).after [] fun returns hr => ?_
  refine (tells_declare _).after [] fun _ _ => tells_insert fun typeId ht => ?_
  obtain ⟨r, hm, rfl⟩ := Option.map_eq_some_iff.mp ht
  exact hr r hm

/-! ### Statements -/

theorem tells_condition (e : Expr) :
    Tells (condition e) (fun _ => True) [Pure.pure (.expr e)] e.nodes := by
  refine (tells_value e).before fun t _ => ?_
  split
  · exact .pure trivial
  · exact .fail _ _

theorem tells_assignment (target : Expr) (op : Token) (source : Expr) :
    Tells (assignment target op source) (fun _ => True) (stmtCalls (.assign target op source))
      (target.nodes ++ source.nodes) := by
  refine (tells_value target).bind [fun _ => do
    let root ← ofExcept (rootOf target op)
    let id ← ofExcept (nameOf root)
    let _ ← lookup? id
    return .expr source] fun t _ => ?_
  refine (tells_ofExcept fun _ _ => trivial).after [fun root => do
    let id ← ofExcept (nameOf root)
    let _ ← lookup? id
    return .expr source] fun root _ => ?_
  refine (tells_name root).after [fun id => do
    let _ ← lookup? id
    return .expr source] fun id _ => ?_
  refine (tells_lookup? id).after [fun _ => Pure.pure (.expr source)] fun o _ => ?_
  split
  · exact .fail _ _
  · refine (tells_value source).before fun v _ => ?_
    split
    · exact .pure trivial
    · exact .fail _ _

theorem tells_ret (token : Token) (result : Option Expr) :
    Tells (ret token result) (fun _ => True) (stmtCalls (.ret token result))
      (Expr.nodesAll result.toList) := by
  refine .get fun s _ => ?_
  split
  · exact Tells.fail _ _ s
  · next body _ =>
    generalize body.returns = returns
    cases result with
    | none =>
      cases returns with
      | none => exact Tells.pure trivial s
      | some expected => exact Tells.fail _ _ s
    | some e =>
      cases returns with
      | none => exact Tells.fail _ _ s
      | some expected =>
        have hnodes : Expr.nodesAll (some e).toList = e.nodes := by simp [Expr.nodesAll]
        rw [hnodes]
        refine Tells.before (tells_value e) (fun found _ => ?_) s
        split
        · exact .pure trivial
        · exact .fail _ _

theorem tells_openScope : Tells openScope (fun _ => True) [] [] :=
  (tells_onMemory fun _ hm => hm.openScope).after [] fun _ _ => tells_onNames fun _ _ => rfl

theorem tells_closeScope : Tells closeScope (fun _ => True) [] [] :=
  .modify fun _ hs => ⟨⟨hs.memory.closeScope, hs.types, hs.udts⟩, rfl, rfl⟩

mutual

/-- The check of a statement visits the nodes of its expressions, in the order of the text. -/
theorem tells_stmt : ∀ st : Stmt, st.Sound →
    Tells (stmt st) (fun _ => True) [Pure.pure (.stmt st)] (Expr.nodesAll st.exprs)
  | .varDecl d, hst => by
    rw [Stmt.Sound] at hst
    rw [stmt, Stmt.exprs]
    exact .task (fun n h => by cases h) (tells_localVariable hst)
  | .constDecl d, hst => by
    rw [Stmt.Sound] at hst
    rw [stmt, Stmt.exprs, Expr.nodesAll_singleton]
    exact .task (fun n h => by cases h) (tells_constant hst)
  | .typeDef d, hst => by
    rw [Stmt.Sound] at hst
    rw [stmt, Stmt.exprs]
    exact .task (fun n h => by cases h) (tells_types (by simpa using hst))
  | .assign target op source, _ => by
    rw [stmt, Stmt.exprs, Expr.nodesAll, Expr.nodesAll_singleton]
    exact .task (fun n h => by cases h) (tells_assignment target op source)
  | .expr e, _ => by
    rw [stmt, Stmt.exprs, Expr.nodesAll_singleton]
    refine .task (fun n h => by cases h) ?_
    exact (tells_expr e).before fun _ _ => .pure trivial
  | .branch token c thenBlock none, hst => by
    rw [Stmt.Sound] at hst
    rw [stmt, Stmt.exprs, Expr.nodesAll]
    refine .task (fun n h => by cases h) ?_
    refine (tells_condition c).bind [fun _ => Pure.pure (.block thenBlock)] fun _ _ => ?_
    exact tells_block thenBlock hst.2
  | .branch token c thenBlock (some elseBlock), hst => by
    rw [Stmt.Sound] at hst
    rw [stmt, Stmt.exprs, Expr.nodesAll, Expr.nodesAll_append]
    refine .task (fun n h => by cases h) ?_
    refine (tells_condition c).bind [fun _ => Pure.pure (.block thenBlock), fun _ => do
      block thenBlock
      return .block elseBlock] fun _ _ => ?_
    refine (tells_block thenBlock hst.2.1).bind [fun _ => Pure.pure (.block elseBlock)] fun _ _ => ?_
    exact tells_block elseBlock hst.2.2
  | .loop token c body, hst => by
    rw [Stmt.Sound] at hst
    rw [stmt, Stmt.exprs, Expr.nodesAll]
    refine .task (fun n h => by cases h) ?_
    refine (tells_condition c).bind [fun _ => Pure.pure (.block body)] fun _ _ => ?_
    exact tells_block body hst.2
  | .ret token result, _ => by
    rw [stmt, Stmt.exprs]
    exact .task (fun n h => by cases h) (tells_ret token result)
  | .block b, hst => by
    rw [Stmt.Sound] at hst
    rw [stmt, Stmt.exprs]
    exact .task (fun n h => by cases h) (tells_block b hst)

theorem tells_block : ∀ b : Block, b.Sound →
    Tells (block b) (fun _ => True) [Pure.pure (.block b)] (Expr.nodesAll b.exprs)
  | ⟨opening, closing, body⟩, hb => by
    rw [Block.Sound] at hb
    rw [block, Block.exprs]
    refine .task (fun n h => by cases h) ?_
    refine tells_openScope.after [fun _ => Pure.pure (.stmts body)] fun _ _ => ?_
    exact (tells_stmts body hb).before fun _ _ => tells_closeScope

theorem tells_stmts : ∀ body : List Stmt, Stmt.SoundAll body →
    Tells (stmts body) (fun _ => True) [Pure.pure (.stmts body)]
      (Expr.nodesAll (Stmt.exprsAll body))
  | [], _ => by
    rw [stmts, Stmt.exprsAll]
    exact .task (fun n h => by cases h) (.pure trivial)
  | st :: rest, hbody => by
    rw [Stmt.SoundAll] at hbody
    rw [stmts, Stmt.exprsAll, Expr.nodesAll_append]
    refine .task (fun n h => by cases h) ?_
    refine (tells_stmt st hbody.1).bind [fun _ => Pure.pure (.stmts rest)] fun _ _ => ?_
    exact tells_stmts rest hbody.2

end

/-! ### Files -/

theorem tells_entering {d : FunctionDef} (hd : d.Sound) :
    Tells (entering d d.params) (fun _ => True) [] [] := by
  have hreturns : Tells (d.returns.mapM resolve) (fun _ => True) [] [] := by
    cases h : d.returns with
    | none => exact .pure trivial
    | some a => exact (tells_resolve (hd.returns a h)).map fun _ _ => trivial
  refine (tells_name d.name).after [] fun id _ => hreturns.after [] fun returns _ => ?_
  refine Tells.after (P := fun _ => True) ?_ [] fun _ _ => tells_openScope.after [] fun _ _ => ?_
  · exact .modify fun s hs => ⟨⟨hs.memory, hs.types, hs.udts⟩, rfl, rfl⟩
  refine (Tells.forM fun f hf => tells_pushParameter (hd.params f hf)).after [] fun _ _ => ?_
  exact .pure trivial

theorem tells_leaving (d : FunctionDef) (r : String × Option ValueType) :
    Tells (leaving d r) (fun _ => True) [] [] := by
  unfold leaving
  split
  · exact .fail _ _
  · refine tells_closeScope.after [] fun _ _ => ?_
    exact .modify fun s hs => ⟨⟨hs.memory, hs.types, hs.udts⟩, rfl, rfl⟩

theorem tells_functionBody {d : FunctionDef} (hd : d.Sound) :
    Tells (functionBody d) (fun _ => True) [Pure.pure (.body d)] (Expr.nodesAll d.body.exprs) := by
  refine .task (fun n h => by cases h) ?_
  have hexprs : d.body.exprs = Stmt.exprsAll d.body.body := by
    obtain ⟨opening, closing, body⟩ := d.body
    rw [Block.exprs]
    rfl
  rw [functionBody_eq, Task.calls, bodyCalls_eq, hexprs]
  refine (tells_entering hd).after [fun _ => Pure.pure (.stmts d.body.body)] fun r _ => ?_
  exact (tells_stmts d.body.body hd.body.body).before fun _ _ => tells_leaving d r

theorem tells_functionBodies {ds : List FunctionDef} (hds : ∀ d ∈ ds, d.Sound) :
    Tells (ds.forM functionBody) (fun _ => True) [Pure.pure (.bodies ds)]
      (Expr.nodesAll (ds.flatMap (·.body.exprs))) := by
  induction ds with
  | nil => exact .task (fun n h => by cases h) (.pure trivial)
  | cons d ds ih =>
    rw [List.forall_mem_cons] at hds
    rw [List.flatMap_cons, Expr.nodesAll_append]
    refine .task (fun n h => by cases h) ?_
    refine (tells_functionBody hds.1).bind [fun _ => Pure.pure (.bodies ds)] fun _ _ => ?_
    exact ih hds.2

theorem tells_item {i : Item} (hi : i.Sound) :
    Tells (item i) (fun _ => True) [Pure.pure (.item i)] (Expr.nodesAll i.initializer) := by
  refine .task (fun n h => by cases h) ?_
  cases i with
  | function d => exact tells_functionName hi
  | varDecl d => exact tells_globalVariable hi
  | constDecl d =>
    rw [Item.initializer, Expr.nodesAll_singleton]
    exact tells_constant hi
  | importFile i => exact .pure trivial
  | typeDef d => exact .pure trivial

theorem tells_items {is : List Item} (his : ∀ i ∈ is, i.Sound) :
    Tells (is.forM item) (fun _ => True) [Pure.pure (.items is)]
      (Expr.nodesAll (is.flatMap Item.initializer)) := by
  induction is with
  | nil => exact .task (fun n h => by cases h) (.pure trivial)
  | cons i is ih =>
    rw [List.forall_mem_cons] at his
    rw [List.flatMap_cons, Expr.nodesAll_append]
    refine .task (fun n h => by cases h) ?_
    refine (tells_item his.1).bind [fun _ => Pure.pure (.items is)] fun _ _ => ?_
    exact ih his.2

/-- The check of a sound file visits the nodes of the initializers and then those of the bodies. -/
theorem tells_file {f : SourceFile} (hf : ∀ i ∈ f.items, i.Sound) :
    Tells (file f) (fun _ => True) [Pure.pure (.file f)]
      (Expr.nodesAll (f.items.flatMap Item.initializer) ++
        Expr.nodesAll (f.functions.flatMap (·.body.exprs))) := by
  refine .task (fun n h => by cases h) ?_
  refine (tells_types (SourceFile.types_sound hf)).after [fun _ => Pure.pure (.items f.items),
    fun _ => do
      f.items.forM item
      return .bodies f.functions] fun _ _ => ?_
  refine (tells_items hf).bind [fun _ => Pure.pure (.bodies f.functions)] fun _ _ => ?_
  exact tells_functionBodies (SourceFile.functions_sound hf)

end Check

/-- The initializers and the bodies hold the expressions of the file, in another order. -/
theorem SourceFile.exprs_perm (f : SourceFile) :
    (f.items.flatMap Item.initializer ++ f.functions.flatMap (·.body.exprs)).Perm f.exprs := by
  unfold SourceFile.exprs SourceFile.functions
  induction f.items with
  | nil => exact .refl _
  | cons i is ih =>
    rw [List.flatMap_cons, List.flatMap_cons]
    cases i with
    | function d =>
      simp only [Item.initializer, List.nil_append, List.filterMap_cons, List.flatMap_cons]
      exact (List.perm_append_comm_assoc _ _ _).trans (ih.append_left _)
    | varDecl d =>
      rw [List.filterMap_cons, List.append_assoc]
      exact ih.append_left _
    | constDecl d =>
      rw [List.filterMap_cons, List.append_assoc]
      exact ih.append_left _
    | importFile i => exact ih
    | typeDef d => exact ih

theorem SourceFile.nodes_perm (f : SourceFile) :
    (Expr.nodesAll (f.items.flatMap Item.initializer) ++
      Expr.nodesAll (f.functions.flatMap (·.body.exprs))).Perm f.nodes := by
  rw [← Expr.nodesAll_append, SourceFile.nodes, Expr.nodesAll_eq, Expr.nodesAll_eq]
  exact f.exprs_perm.flatMap_right _

theorem SourceFile.numbers_perm (f : SourceFile) :
    (Expr.numbersAll (f.items.flatMap Item.initializer) ++
      Expr.numbersAll (f.functions.flatMap (·.body.exprs))).Perm f.numbers := by
  rw [← Expr.numbersAll_append, SourceFile.numbers, Expr.numbersAll_eq, Expr.numbersAll_eq]
  exact f.exprs_perm.flatMap_right _

end StoragePlan
