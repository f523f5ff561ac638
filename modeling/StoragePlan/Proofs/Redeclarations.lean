import StoragePlan.Proofs.Files
import StoragePlan.Proofs.Trees

/-!
Where the check of a file can refuse a name that its scope has already: only at a token with which
the text declares a name. So the fault tells which declaration was refused.
-/

namespace StoragePlan

def SemanticError.isRedeclaration : SemanticError → Bool
  | .alreadyDeclared _ _ => true
  | _ => false

namespace Check

variable {α β : Type}

/-- Where the step refuses a name that its scope has already, it does so at one of these tokens. -/
def Refuses (ts : List Token) (x : Check α) : Prop :=
  ∀ s, Ends x s (fun _ _ => True) fun f _ =>
    f.cause.isRedeclaration = true → ∃ t ∈ ts, f.position = t.position

namespace Refuses

variable {ts ts' : List Token} {x : Check α} {f : α → Check β}

theorem pure (a : α) : Refuses ts (Pure.pure a : Check α) := fun _ => Ends.pure trivial

theorem fail {p : Position} {e : SemanticError} (he : e.isRedeclaration = false) :
    Refuses ts (Check.fail p e : Check α) := fun _ => Ends.throw fun h => by simp [he] at h

theorem mono (h : Refuses ts x) (hs : ts ⊆ ts') : Refuses ts' x := fun s =>
  (h s).mono (fun _ _ hd => hd) fun _ _ hf hr => by
    obtain ⟨t, ht, hp⟩ := hf hr
    exact ⟨t, hs ht, hp⟩

theorem bind (hx : Refuses ts x) (hf : ∀ a, Refuses ts (f a)) : Refuses ts (x >>= f) := fun s =>
  (hx s).seq (fun _ _ h => h) fun a s' _ => hf a s'

theorem get : Refuses ts (MonadState.get : Check Session) := fun _ => Ends.get trivial

theorem change (g : Session → Session) : Refuses ts (modify g : Check Unit) :=
  fun _ => Ends.modify trivial

theorem ofExcept {y : Except SemanticFault α}
    (h : ∀ f, y = .error f → f.cause.isRedeclaration = false) : Refuses ts (ofExcept y) :=
  fun _ => (ofExcept_ends y).mono (fun _ _ _ => trivial) fun f _ hf hr => by
    simp [h f hf.2] at hr

theorem forM {γ : Type} {g : γ → Check PUnit} {cs : List γ} (hg : ∀ c ∈ cs, Refuses ts (g c)) :
    Refuses ts (cs.forM g) := by
  induction cs with
  | nil => exact .pure ()
  | cons c cs ih =>
    rw [List.forall_mem_cons] at hg
    exact hg.1.bind fun _ => ih hg.2

theorem mapM {γ : Type} {g : γ → Check β} {cs : List γ} (hg : ∀ c ∈ cs, Refuses ts (g c)) :
    Refuses ts (cs.mapM g) := by
  induction cs with
  | nil => exact .pure []
  | cons c cs ih =>
    rw [List.forall_mem_cons] at hg
    rw [List.mapM_cons]
    exact hg.1.bind fun b => (ih hg.2).bind fun bs => .pure _

theorem forM_option {γ : Type} {g : γ → Check PUnit} (hg : ∀ c, Refuses ts (g c))
    (o : Option γ) : Refuses ts (o.forM g) := by
  cases o with
  | none => exact .pure ()
  | some c => exact hg c

theorem mapM_option {γ : Type} {g : γ → Check β} (hg : ∀ c, Refuses ts (g c))
    (o : Option γ) : Refuses ts (o.mapM g) := by
  cases o with
  | none => exact .pure none
  | some c => exact fun s => Ends.map (hg c s)

end Refuses

variable {ts : List Token}

/-! ### Small steps -/

theorem refuses_nameOf (t : Token) : Refuses ts (ofExcept (nameOf t)) := by
  refine .ofExcept fun f hf => ?_
  unfold nameOf at hf
  split at hf
  · cases hf
  · cases hf
    rfl

theorem refuses_requireNew (id : String) {t : Token} (ht : t ∈ ts) :
    Refuses ts (requireNew id t.position) := fun s => by
  refine (requireNew_ends id t.position).mono (fun _ _ _ => trivial) ?_
  rintro f _ ⟨_, rfl | ⟨previous, _, rfl⟩⟩ _
  · exact ⟨t, ht, rfl⟩
  · exact ⟨t, ht, rfl⟩

theorem refuses_requireRoom (id : String) (size : Nat) (p : Position) :
    Refuses ts (requireRoom id size p) := fun s => by
  refine (requireRoom_ends id size p).mono (fun _ _ _ => trivial) ?_
  rintro f _ ⟨_, rfl⟩ hr
  cases hr

theorem refuses_resolve (a : Annotation) : Refuses ts (resolve a) := fun s => by
  refine (resolve_ends a).mono (fun _ _ _ => trivial) ?_
  rintro f _ ⟨_, rfl | rfl | ⟨p, d, rfl⟩⟩ hr <;> cases hr

theorem refuses_intern (t : ValueType) (p : Position) : Refuses ts (intern t p) := fun s => by
  refine (intern_ends t p).mono (fun _ _ _ => trivial) ?_
  rintro f _ ⟨_, _, rfl⟩ hr
  cases hr

theorem refuses_sizeOf (t : ValueType) (p : Position) : Refuses ts (sizeOf t p) := fun s => by
  refine (sizeOf_ends t p).mono (fun _ _ _ => trivial) ?_
  rintro f _ ⟨_, e, _, rfl⟩ hr
  cases e <;> cases hr

theorem refuses_record (id : Nat) (t : ValueType) : Refuses ts (record id t) := fun s => by
  refine (intern?_ends t).seq (fun _ _ h => h.elim) ?_
  rintro (_ | h) s' _
  · exact Ends.bind (Ends.pure (Ends.pure trivial))
  · exact Ends.bind (Ends.modify (Ends.pure trivial))

theorem refuses_lookup? (id : String) : Refuses ts (lookup? id) := fun _ =>
  (lookup?_ends id).mono (fun _ _ _ => trivial) fun _ _ h => h.elim

theorem refuses_openScope : Refuses ts openScope :=
  (Refuses.change _).bind fun _ => .change _

/-! ### Expressions -/

theorem refuses_requireValue (e : Expr) (t : ValueType) : Refuses ts (requireValue e t) := by
  unfold requireValue
  split
  · exact .fail rfl
  · exact .pure t

theorem refuses_nameType (token : Token) : Refuses ts (nameType token) := by
  refine (refuses_nameOf token).bind fun id => (refuses_lookup? id).bind fun o => ?_
  split
  · exact .fail rfl
  · split
    · refine Refuses.get.bind fun s => ?_
      dsimp only
      split
      · exact .pure _
      · exact .fail rfl
    · exact .fail rfl

theorem refuses_fieldOf (op : Token) (e : Expr) : Refuses ts (ofExcept (fieldOf op e)) := by
  unfold fieldOf
  split
  · exact refuses_nameOf _
  · exact .fail rfl

theorem refuses_fieldType (left : ValueType) (op : Token) (right : Expr) :
    Refuses ts (fieldType left op right) := by
  refine (refuses_fieldOf op right).bind fun field => Refuses.get.bind fun s => ?_
  split
  · dsimp only
    split
    · exact .pure _
    · exact .fail rfl
  · exact .fail rfl

theorem refuses_parametersOf (callee : Token) (id : String) :
    Refuses ts (parametersOf callee id) := by
  refine (refuses_lookup? id).bind fun o => ?_
  split
  · exact .fail rfl
  · split
    · exact .pure _
    · exact .fail rfl

theorem refuses_callType (callee : Token) (id : String) : Refuses ts (callType callee id) := by
  refine Refuses.get.bind fun s => ?_
  dsimp only
  split
  · exact .pure _
  · exact .fail rfl

theorem refuses_ofLiteral (t : Token) : Refuses ts (ofExcept (ValueType.ofLiteral t)) := by
  unfold ValueType.ofLiteral
  split
  · exact .pure _
  · exact .pure _
  · exact .fail rfl

theorem refuses_ofBinary (op : Token) (l r : ValueType) :
    Refuses ts (ofExcept (ValueType.ofBinary op l r)) := by
  unfold ValueType.ofBinary
  split
  · exact .pure _
  · exact .fail rfl

theorem refuses_ofUnary (op : Token) (t : ValueType) :
    Refuses ts (ofExcept (ValueType.ofUnary op t)) := by
  unfold ValueType.ofUnary
  split
  · exact .pure _
  · split
    · exact .pure _
    · exact .fail rfl

theorem refuses_ofIndex (bracket : Token) (t i : ValueType) :
    Refuses ts (ofExcept (ValueType.ofIndex bracket t i)) := by
  unfold ValueType.ofIndex
  split
  · exact .pure _
  · split
    · exact .fail rfl
    · split
      · exact .pure _
      · exact .fail rfl

mutual

/-- An expression declares no name, so none is refused in it. -/
theorem refuses_expr : ∀ e : Expr, Refuses ts (expr e)
  | .literal id token => by
    rw [expr]
    exact (refuses_ofLiteral token).bind fun t => refuses_record id t
  | .ident id token => by
    rw [expr]
    exact (refuses_nameType token).bind fun t => refuses_record id t
  | .binary id left op right => by
    rw [expr]
    refine (refuses_expr left).bind fun t => (refuses_requireValue left t).bind fun l => ?_
    split
    · exact (refuses_fieldType l op right).bind fun t => refuses_record id t
    · refine (refuses_expr right).bind fun t => (refuses_requireValue right t).bind fun r => ?_
      exact (refuses_ofBinary op l r).bind fun t => refuses_record id t
  | .unary id op operand => by
    rw [expr]
    refine (refuses_expr operand).bind fun t => (refuses_requireValue operand t).bind fun t => ?_
    exact (refuses_ofUnary op t).bind fun t => refuses_record id t
  | .call id callee args => by
    rw [expr]
    refine (refuses_nameOf callee).bind fun name => ?_
    refine (refuses_parametersOf callee name).bind fun params => ?_
    split
    · refine (refuses_arguments name 1 args params).bind fun _ => ?_
      exact (refuses_callType callee name).bind fun t => refuses_record id t
    · exact .fail rfl
  | .index id target bracket subscript => by
    rw [expr]
    refine (refuses_expr target).bind fun t => (refuses_requireValue target t).bind fun t => ?_
    refine (refuses_expr subscript).bind fun i => ?_
    refine (refuses_requireValue subscript i).bind fun i => ?_
    exact (refuses_ofIndex bracket t i).bind fun t => refuses_record id t

theorem refuses_arguments (callee : String) : ∀ (number : Nat) (args : List Expr)
    (params : List TypedName), Refuses ts (arguments callee number args params)
  | number, arg :: args, param :: params => by
    rw [arguments]
    refine (refuses_expr arg).bind fun t => (refuses_requireValue arg t).bind fun found => ?_
    refine Refuses.get.bind fun s => ?_
    dsimp only
    split
    · exact refuses_arguments callee (number + 1) args params
    · exact .fail rfl
  | _, [], _ => by
    rw [arguments]
    · exact .pure _
    · intro arg args param params h
      cases h
  | _, _ :: _, [] => by
    rw [arguments]
    · exact .pure _
    · intro arg args param params _ h
      cases h

end

theorem refuses_value (e : Expr) : Refuses ts (value e) :=
  (refuses_expr e).bind fun t => refuses_requireValue e t

/-! ### Declarations -/

theorem refuses_typeName {d : TypeDef} (hd : d.name ∈ ts) : Refuses ts (typeName d) := by
  refine (refuses_nameOf d.name).bind fun id => (refuses_requireNew id hd).bind fun _ => ?_
  refine Refuses.get.bind fun s => ?_
  split
  · exact .fail rfl
  · exact .change _

theorem refuses_typeFields (id : String) (fs : List Field) (known : List Member) :
    Refuses ts (typeFields id known fs) := by
  induction fs generalizing known with
  | nil => exact .pure known
  | cons f fs ih =>
    refine (refuses_nameOf f.name).bind fun name => ?_
    split
    · exact .fail rfl
    · refine (refuses_resolve f.annotation).bind fun t => (refuses_intern t _).bind fun h => ?_
      exact (Refuses.change _).bind fun _ => ih _

/-- With the names of types known, what remains of their declarations refuses no name. -/
theorem refuses_shapes (ds : List TypeDef) :
    Refuses ts (do
      ds.forM typeBody
      ds.forM typeSize) := by
  refine (Refuses.forM fun d _ => ?_).bind fun _ => .forM fun d _ => ?_
  · refine (refuses_nameOf d.name).bind fun id => ?_
    exact (refuses_typeFields id d.fields []).bind fun fields => .change _
  · refine (refuses_nameOf d.name).bind fun id => ?_
    exact (refuses_sizeOf (.udt id) d.name.position).bind fun _ => .pure ()

theorem refuses_types {ds : List TypeDef} (hd : ∀ d ∈ ds, d.name ∈ ts) : Refuses ts (types ds) :=
  (Refuses.forM fun d h => refuses_typeName (hd d h)).bind fun _ => refuses_shapes ds

theorem refuses_literalFor (id : String) (target : ValueType) (init : Expr) :
    Refuses ts (literalFor id target init) := by
  unfold literalFor
  split
  · refine (refuses_expr _).bind fun t => ?_
    split
    · exact .pure _
    · exact .fail rfl
  · exact .fail rfl

theorem refuses_valueFor (target : ValueType) (init : Expr) :
    Refuses ts (valueFor target init) := by
  refine (refuses_value _).bind fun t => ?_
  split
  · exact .pure _
  · exact .fail rfl

theorem refuses_declareValue (id : String) (kind : Handle → SymbolKind) (exported : Bool)
    (p : Position) (t : ValueType) (size : Nat) (v : Int) :
    Refuses ts (declareValue id kind exported p t size v) := by
  refine (refuses_requireRoom id size p).bind fun _ => (refuses_intern t p).bind fun h => ?_
  exact (Refuses.change _).bind fun _ => .pure _

/-- A declaration of a value refuses its own name only. -/
theorem refuses_announced {name : Token} (hn : name ∈ ts) (a : Annotation)
    {f : String → ValueType → Nat → Check β} (hf : ∀ id t n, Refuses ts (f id t n)) :
    Refuses ts (do
      let id ← ofExcept (nameOf name)
      requireNew id name.position
      let t ← resolve a
      let n ← sizeOf t a.position
      f id t n) := by
  refine (refuses_nameOf name).bind fun id => (refuses_requireNew id hn).bind fun _ => ?_
  exact (refuses_resolve a).bind fun t => (refuses_sizeOf t _).bind fun n => hf id t n

theorem refuses_globalVariable {d : VariableDecl} (hd : d.name ∈ ts) :
    Refuses ts (globalVariable d) := by
  refine refuses_announced hd d.annotation fun id t n => ?_
  refine (Refuses.forM_option (fun e => refuses_literalFor id t e) d.value).bind fun _ => ?_
  exact (refuses_declareValue id _ _ _ t n _).bind fun e => .change _

theorem refuses_localVariable {d : VariableDecl} (hd : d.name ∈ ts) :
    Refuses ts (localVariable d) := by
  refine refuses_announced hd d.annotation fun id t n => ?_
  refine (Refuses.forM_option (fun e => refuses_valueFor t e) d.value).bind fun _ => ?_
  exact (refuses_declareValue id _ _ _ t n _).bind fun e => .change _

theorem refuses_constant {d : ConstantDecl} (hd : d.name ∈ ts) : Refuses ts (constant d) := by
  refine refuses_announced hd d.annotation fun id t n => ?_
  refine (refuses_literalFor id t d.value).bind fun _ => ?_
  refine (refuses_declareValue id _ _ _ t n _).bind fun e => Refuses.get.bind fun s => ?_
  split
  · exact .change _
  · exact .change _

theorem refuses_pushParameter {f : Field} (hf : f.name ∈ ts) : Refuses ts (pushParameter f) :=
  refuses_announced hf f.annotation fun id t n =>
    (refuses_declareValue id _ _ _ t n _).bind fun _ => .change _

theorem refuses_parameter (f : Field) : Refuses ts (parameter f) := by
  refine (refuses_nameOf f.name).bind fun id => (refuses_resolve f.annotation).bind fun t => ?_
  exact (refuses_intern t _).bind fun h => .pure _

theorem refuses_returnType (a : Annotation) : Refuses ts (returnType a) :=
  (refuses_resolve a).bind fun t => (refuses_intern t _).bind fun _ => .pure _

theorem refuses_functionName {d : FunctionDef} (hd : d.name ∈ ts) :
    Refuses ts (functionName d) := by
  refine (refuses_nameOf d.name).bind fun id => (refuses_requireNew id hd).bind fun _ => ?_
  refine (Refuses.mapM fun f _ => refuses_parameter f).bind fun ps => ?_
  refine (Refuses.mapM_option refuses_returnType d.returns).bind fun r => ?_
  exact (Refuses.change _).bind fun _ => .change _

/-! ### Statements -/

theorem refuses_condition (e : Expr) : Refuses ts (condition e) := by
  refine (refuses_value e).bind fun t => ?_
  split
  · exact .pure _
  · exact .fail rfl

theorem refuses_assignment (target : Expr) (op : Token) (source : Expr) :
    Refuses ts (assignment target op source) := by
  have hroot : Refuses ts (ofExcept (rootOf target op)) := by
    unfold rootOf
    split
    · exact .pure _
    · exact .fail rfl
  refine (refuses_value target).bind fun t => hroot.bind fun root => ?_
  refine (refuses_nameOf root).bind fun id => (refuses_lookup? id).bind fun x => ?_
  split
  · exact .fail rfl
  · refine (refuses_value source).bind fun v => ?_
    split
    · exact .pure _
    · exact .fail rfl

theorem refuses_ret (token : Token) (result : Option Expr) : Refuses ts (ret token result) := by
  refine Refuses.get.bind fun s => ?_
  split
  · exact .fail rfl
  · split
    · exact .pure _
    · exact .fail rfl
    · exact .fail rfl
    · refine (refuses_value _).bind fun found => ?_
      split
      · exact .pure _
      · exact .fail rfl

mutual

/-- A statement refuses only names that it declares. -/
theorem refuses_stmt : ∀ st : Stmt, Refuses st.names (stmt st)
  | .varDecl d => by
    rw [stmt]
    exact refuses_localVariable (by simp [Stmt.names])
  | .constDecl d => by
    rw [stmt]
    exact refuses_constant (by simp [Stmt.names])
  | .typeDef d => by
    rw [stmt]
    exact refuses_types (by simp [Stmt.names])
  | .assign target op source => by
    rw [stmt]
    exact refuses_assignment target op source
  | .expr e => by
    rw [stmt]
    exact (refuses_expr e).bind fun _ => .pure ()
  | .branch _ c thenBlock none => by
    rw [stmt, Stmt.names]
    exact (refuses_condition c).bind fun _ => refuses_block thenBlock
  | .branch _ c thenBlock (some elseBlock) => by
    rw [stmt, Stmt.names]
    refine (refuses_condition c).bind fun _ => ?_
    refine ((refuses_block thenBlock).mono (List.subset_append_left _ _)).bind fun _ => ?_
    exact (refuses_block elseBlock).mono (List.subset_append_right _ _)
  | .loop _ c body => by
    rw [stmt, Stmt.names]
    exact (refuses_condition c).bind fun _ => refuses_block body
  | .ret token result => by
    rw [stmt]
    exact refuses_ret token result
  | .block b => by
    rw [stmt, Stmt.names]
    exact refuses_block b

theorem refuses_block : ∀ b : Block, Refuses b.names (block b)
  | ⟨_, _, body⟩ => by
    rw [block, Block.names]
    exact refuses_openScope.bind fun _ => (refuses_stmts body).bind fun _ => .change _

theorem refuses_stmts : ∀ body : List Stmt, Refuses (Stmt.namesAll body) (stmts body)
  | [] => by
    rw [stmts]
    exact .pure ()
  | st :: rest => by
    rw [stmts, Stmt.namesAll]
    refine ((refuses_stmt st).mono (List.subset_append_left _ _)).bind fun _ => ?_
    exact (refuses_stmts rest).mono (List.subset_append_right _ _)

end

/-! ### Functions and items -/

/-- The body of a function refuses only parameters and names that are declared in it. -/
theorem refuses_functionBody (d : FunctionDef) : Refuses d.inner (functionBody d) := by
  have hbody : Stmt.namesAll d.body.body ⊆ d.inner := by
    obtain ⟨_, _, _, _, ⟨opening, closing, body⟩⟩ := d
    simp [FunctionDef.inner, Block.names, Block.body]
  refine (refuses_nameOf d.name).bind fun id => ?_
  refine (Refuses.mapM_option refuses_resolve d.returns).bind fun returns => ?_
  refine (Refuses.change _).bind fun _ => refuses_openScope.bind fun _ => ?_
  refine (Refuses.forM fun f hf => refuses_pushParameter ?_).bind fun _ => ?_
  · exact List.mem_append_left _ (List.mem_map_of_mem hf)
  · refine ((refuses_stmts d.body.body).mono hbody).bind fun _ => ?_
    split
    · exact .fail rfl
    · exact (Refuses.change _).bind fun _ => .change _

end Check

/-- The name of a function, variable or constant at the top level. -/
def Item.name? : Item → Option Token
  | .function d => some d.name
  | .varDecl d => some d.name
  | .constDecl d => some d.name
  | .importFile _ => none
  | .typeDef _ => none

namespace Check

theorem refuses_item {i : Item} {ts : List Token} (hi : ∀ t ∈ i.name?, t ∈ ts) :
    Refuses ts (item i) := by
  cases i with
  | function d => exact refuses_functionName (hi d.name rfl)
  | varDecl d => exact refuses_globalVariable (hi d.name rfl)
  | constDecl d => exact refuses_constant (hi d.name rfl)
  | importFile i => exact .pure ()
  | typeDef d => exact .pure ()

end Check

end StoragePlan
