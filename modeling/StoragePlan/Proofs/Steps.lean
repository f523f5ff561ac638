import StoragePlan.Check.Expr
import StoragePlan.Proofs.Effect
import StoragePlan.Proofs.Written

/-!
The small steps of a check, one lemma each. Most of them only look at the session; giving a handle to
a type changes the table of types alone. So the check of an expression declares nothing.
-/

namespace StoragePlan

namespace Check

variable {α : Type} {s : Session}

theorem ofExcept_ends (x : Except SemanticFault α) :
    Ends (ofExcept x) s (fun a s' => s' = s ∧ x = .ok a) (fun f s' => s' = s ∧ x = .error f) := by
  cases x with
  | ok a => exact Ends.pure ⟨rfl, rfl⟩
  | error f => exact Ends.throw ⟨rfl, rfl⟩

theorem lookup?_ends (id : String) :
    Ends (lookup? id) s (fun a s' => s' = s ∧ a = s.names.lookup? s.file id) (fun _ _ => False) :=
  ⟨rfl, rfl⟩

/-- A name passes if the current scope does not have it and, outside of functions, storage does not
have it either. -/
theorem requireNew_ends (id : String) (p : Position) :
    Ends (requireNew id p) s
      (fun _ s' => s' = s ∧ s.names.current? s.file id = none ∧
        (s.body = none → s.memory.find? id = none))
      (fun f s' => s' = s ∧ (f = ⟨p, .nameInUse id⟩ ∨
        ∃ previous, s.names.current? s.file id = some previous ∧
          f = ⟨p, .alreadyDeclared id previous.position⟩)) := by
  refine Ends.bind (Ends.get ?_)
  split
  · next previous hc => exact Ends.throw ⟨rfl, .inr ⟨previous, hc, rfl⟩⟩
  · next hc =>
    split
    · exact Ends.throw ⟨rfl, .inl rfl⟩
    · next hb =>
      refine Ends.pure ⟨rfl, hc, fun hn => ?_⟩
      simpa [hn] using hb

/-- The size of the stack inside of functions, and of the data segment outside. -/
def used (s : Session) : Nat :=
  if s.body.isSome then s.memory.stackSize else s.memory.dataSize

theorem requireRoom_ends (id : String) (size : Nat) (p : Position) :
    Ends (requireRoom id size p) s (fun _ s' => s' = s ∧ used s + size ≤ maxStorage)
      (fun f s' => s' = s ∧ f = ⟨p, .outOfMemory id⟩) := by
  refine Ends.bind (Ends.get ?_)
  change Ends (if used s + size ≤ maxStorage then pure () else fail p (.outOfMemory id)) s _ _
  split
  · next h => exact Ends.pure ⟨rfl, h⟩
  · exact Ends.throw ⟨rfl, rfl⟩

/-! ### Types -/

/-- The name means a type in a file. -/
def Known (names : Registry) (file id : String) : Prop :=
  ∃ x, names.lookup? file id = some x ∧ x.isUdt = true

/-- The type that an annotation stands for where the names in `known` mean types. -/
def Resolves (known : String → Prop) (a : Annotation) (t : ValueType) : Prop :=
  ∃ base, (match a.primitive? with
      | some p => base = .prim p
      | none => known a.baseName ∧ base = .udt a.baseName) ∧
    if a.isArray then ∃ ds, dimensions a.dims = .ok ds ∧ t = .array base ds else t = base

theorem Resolves.mono {known known' : String → Prop} {a : Annotation} {t : ValueType}
    (h : Resolves known a t) (hk : ∀ id, known id → known' id) : Resolves known' a t := by
  obtain ⟨base, hb, ht⟩ := h
  refine ⟨base, ?_, ht⟩
  split at hb
  · exact hb
  · exact ⟨hk _ hb.1, hb.2⟩

theorem dimensions_eq_ok {ds : List (Int × Position)} {ns : List Nat} (h : dimensions ds = .ok ns) :
    ns = ds.map (·.1.toNat) := by
  induction ds generalizing ns with
  | nil => exact (Except.ok.inj h).symm
  | cons d ds ih =>
    unfold dimensions at h
    split at h
    · cases h
    · split at h
      · next ms hms =>
        rw [List.map_cons, ← ih hms]
        exact (Except.ok.inj h).symm
      · cases h

/-- An annotation stands for the type that it writes. -/
theorem Resolves.type {known : String → Prop} {a : Annotation} {t : ValueType}
    (h : Resolves known a t) : t = a.type := by
  obtain ⟨base, hb, ht⟩ := h
  have hbase : base = a.base := by
    unfold Annotation.base
    cases hp : a.primitive? with
    | some p =>
      rw [hp] at hb
      exact hb
    | none =>
      rw [hp] at hb
      exact hb.2
  unfold Annotation.type
  split at ht
  · next ha =>
    obtain ⟨ns, hns, rfl⟩ := ht
    rw [if_pos ha, dimensions_eq_ok hns, hbase]
  · next ha => rw [if_neg ha, ht, hbase]

theorem Known.of_grow {r : Registry} {file id : String} {ss : List Symbol}
    (h : Known (r.onTable file (·.grow ss)) file id) :
    id ∈ ss.map (·.id) ∨ Known r file id := by
  obtain ⟨x, hx, hu⟩ := h
  rcases Registry.lookup?_grow hx with hm | hl
  · exact .inl (Registry.lookup?_id hx ▸ List.mem_map_of_mem hm)
  · exact .inr ⟨x, hl, hu⟩

theorem baseType_eq_ok {names : Registry} {file : String} {a : Annotation} {base : ValueType}
    (h : baseType names file a = .ok base) :
    match a.primitive? with
    | some p => base = .prim p
    | none => Known names file a.baseName ∧ base = .udt a.baseName := by
  unfold baseType at h
  cases hp : a.primitive? with
  | some p =>
    rw [hp] at h
    exact (Except.ok.inj h).symm
  | none =>
    rw [hp] at h
    dsimp only at h
    split at h
    · cases h
    · next x hx =>
      split at h
      · next hu => exact ⟨⟨x, hx, hu⟩, (Except.ok.inj h).symm⟩
      · cases h

theorem baseType_eq_error {names : Registry} {file : String} {a : Annotation} {f : SemanticFault}
    (h : baseType names file a = .error f) :
    f = ⟨a.position, .unknownType a.baseName⟩ ∨ f = ⟨a.position, .notAType a.baseName⟩ := by
  unfold baseType at h
  split at h
  · cases h
  · split at h
    · exact .inl (Except.error.inj h).symm
    · split at h
      · cases h
      · exact .inr (Except.error.inj h).symm

theorem dimensions_eq_error {ds : List (Int × Position)} {f : SemanticFault}
    (h : dimensions ds = .error f) : ∃ p d, f = ⟨p, .invalidDimension d⟩ := by
  induction ds with
  | nil => cases h
  | cons d ds ih =>
    unfold dimensions at h
    split at h
    · exact ⟨_, _, (Except.error.inj h).symm⟩
    · split at h
      · cases h
      · next hd =>
        cases h
        exact ih hd

/-- What is wrong with an annotation that stands for no type. -/
def Unresolved (a : Annotation) (f : SemanticFault) : Prop :=
  f = ⟨a.position, .unknownType a.baseName⟩ ∨ f = ⟨a.position, .notAType a.baseName⟩ ∨
    ∃ p d, f = ⟨p, .invalidDimension d⟩

theorem resolve_ends (a : Annotation) :
    Ends (resolve a) s (fun t s' => s' = s ∧ Resolves (Known s.names s.file) a t)
      (fun f s' => s' = s ∧ Unresolved a f) := by
  refine Ends.bind (Ends.get ?_)
  refine (ofExcept_ends _).seq
    (fun f s' h => ⟨h.1, (baseType_eq_error h.2).imp id .inl⟩) ?_
  rintro base s' ⟨rfl, hb⟩
  split
  · next ha =>
    refine (ofExcept_ends _).seq
      (fun f s' h => ⟨h.1, .inr (.inr (dimensions_eq_error h.2))⟩) ?_
    rintro ds s' ⟨rfl, hd⟩
    exact Ends.pure ⟨rfl, base, baseType_eq_ok hb, by rw [if_pos ha]; exact ⟨ds, hd, rfl⟩⟩
  · next ha => exact Ends.pure ⟨rfl, base, baseType_eq_ok hb, by rw [if_neg ha]⟩

/-- The session with another table of types. -/
def withTypes (s : Session) (types : TypeTable) : Session :=
  { s with names := { s.names with types := types } }

theorem intern?_ends (t : ValueType) :
    Ends (intern? t) s
      (fun o s' => match o with
        | none => s' = s ∧ s.names.types.intern? t = none
        | some h => ∃ types, s' = withTypes s types ∧ s.names.types.intern? t = some (h, types))
      (fun _ _ => False) := by
  refine Ends.bind (Ends.get ?_)
  split
  · next h types hi => exact Ends.bind (Ends.set (Ends.pure ⟨types, rfl, hi⟩))
  · next hi => exact Ends.pure ⟨rfl, hi⟩

theorem intern_ends (t : ValueType) (p : Position) :
    Ends (intern t p) s
      (fun h s' => ∃ types, s' = withTypes s types ∧ s.names.types.intern? t = some (h, types))
      (fun f s' => s' = s ∧ s.names.types.intern? t = none ∧
        f = ⟨p, .internal (.missingType t.typeId)⟩) := by
  refine (intern?_ends t).seq (fun _ _ h => h.elim) ?_
  rintro (_ | h) s' hs
  · exact Ends.throw ⟨hs.1, hs.2, rfl⟩
  · exact Ends.pure hs

theorem sizeOf_ends (t : ValueType) (p : Position) :
    Ends (sizeOf t p) s (fun n s' => s' = s ∧ t.size s.memory = .ok n)
      (fun f s' => s' = s ∧ ∃ e, t.size s.memory = .error e ∧ f = sizeFault p e) := by
  refine Ends.bind (Ends.get ?_)
  split
  · next n hn => exact Ends.pure ⟨rfl, hn⟩
  · next e he => exact Ends.throw ⟨rfl, e, he, rfl⟩

/-! ### Steps that declare nothing -/

theorem notes_ofExcept (x : Except SemanticFault α) : Notes (ofExcept x) :=
  .of_eq fun _ => (ofExcept_ends x).mono (fun _ _ h => h.1) (fun _ _ h => h.1)

theorem notes_lookup? (id : String) : Notes (lookup? id) :=
  .of_eq fun _ => (lookup?_ends id).mono (fun _ _ h => h.1) (fun _ _ h => h.elim)

theorem notes_get : Notes (MonadState.get : Check Session) := .of_eq fun _ => Ends.get rfl

theorem notes_requireNew (id : String) (p : Position) : Notes (requireNew id p) :=
  .of_eq fun _ => (requireNew_ends id p).mono (fun _ _ h => h.1) (fun _ _ h => h.1)

theorem notes_resolve (a : Annotation) : Notes (resolve a) :=
  .of_eq fun _ => (resolve_ends a).mono (fun _ _ h => h.1) (fun _ _ h => h.1)

theorem notes_sizeOf (t : ValueType) (p : Position) : Notes (sizeOf t p) :=
  .of_eq fun _ => (sizeOf_ends t p).mono (fun _ _ h => h.1) (fun _ _ h => h.1)

theorem grown_intern {t : ValueType} {h : Handle} {types : TypeTable}
    (hi : s.names.types.intern? t = some (h, types)) : Grown [] s (withTypes s types) :=
  Grown.of_types (TypeTable.intern?_grown hi).1

theorem notes_intern (t : ValueType) (p : Position) : Notes (intern t p) := fun s => by
  refine (intern_ends t p).mono ?_ fun _ _ h => h.1 ▸ .refl s
  rintro h _ ⟨types, rfl, hi⟩
  exact ⟨grown_intern hi, rfl⟩

theorem notes_record (id : Nat) (t : ValueType) : Notes (record id t) := fun s => by
  refine (intern?_ends t).seq (fun _ _ h => h.elim) ?_
  rintro (_ | h) s' hs
  · obtain ⟨rfl, _⟩ := hs
    exact Ends.bind (Ends.pure (Ends.pure (.refl _)))
  · obtain ⟨types, rfl, hi⟩ := hs
    exact Ends.bind (Ends.modify (Ends.pure ⟨.of_types (TypeTable.intern?_grown hi).1, rfl⟩))

/-! ### Expressions -/

theorem notes_requireValue (e : Expr) (t : ValueType) : Notes (requireValue e t) := by
  unfold requireValue
  split
  · exact .fail _ _
  · exact .pure t

theorem notes_nameType (token : Token) : Notes (nameType token) := by
  refine (notes_ofExcept _).bind fun id => (notes_lookup? id).bind fun o => ?_
  split
  · exact .fail _ _
  · split
    · refine notes_get.bind fun s => ?_
      dsimp only
      split
      · exact .pure _
      · exact .fail _ _
    · exact .fail _ _

theorem notes_fieldType (left : ValueType) (op : Token) (right : Expr) :
    Notes (fieldType left op right) := by
  refine (notes_ofExcept _).bind fun field => notes_get.bind fun s => ?_
  split
  · dsimp only
    split
    · exact .pure _
    · exact .fail _ _
  · exact .fail _ _

theorem notes_parametersOf (callee : Token) (id : String) : Notes (parametersOf callee id) := by
  refine (notes_lookup? id).bind fun o => ?_
  split
  · exact .fail _ _
  · split
    · exact .pure _
    · exact .fail _ _

theorem notes_callType (callee : Token) (id : String) : Notes (callType callee id) := by
  refine notes_get.bind fun s => ?_
  dsimp only
  split
  · exact .pure _
  · exact .fail _ _

mutual

/-- The check of an expression declares nothing. -/
theorem notes_expr : ∀ e : Expr, Notes (expr e)
  | .literal id token => by
    rw [expr]
    exact (notes_ofExcept _).bind fun t => notes_record id t
  | .ident id token => by
    rw [expr]
    exact (notes_nameType token).bind fun t => notes_record id t
  | .binary id left op right => by
    rw [expr]
    refine (notes_expr left).bind fun t => (notes_requireValue left t).bind fun l => ?_
    split
    · exact (notes_fieldType l op right).bind fun t => notes_record id t
    · refine (notes_expr right).bind fun t => (notes_requireValue right t).bind fun r => ?_
      exact (notes_ofExcept _).bind fun t => notes_record id t
  | .unary id op operand => by
    rw [expr]
    refine (notes_expr operand).bind fun t => (notes_requireValue operand t).bind fun t => ?_
    exact (notes_ofExcept _).bind fun t => notes_record id t
  | .call id callee args => by
    rw [expr]
    refine (notes_ofExcept _).bind fun name => (notes_parametersOf callee name).bind fun params => ?_
    split
    · refine (notes_arguments name 1 args params).bind fun _ => ?_
      exact (notes_callType callee name).bind fun t => notes_record id t
    · exact .fail _ _
  | .index id target bracket subscript => by
    rw [expr]
    refine (notes_expr target).bind fun t => (notes_requireValue target t).bind fun t => ?_
    refine (notes_expr subscript).bind fun i => (notes_requireValue subscript i).bind fun i => ?_
    exact (notes_ofExcept _).bind fun t => notes_record id t

theorem notes_arguments (callee : String) : ∀ (number : Nat) (args : List Expr)
    (params : List TypedName), Notes (arguments callee number args params)
  | number, arg :: args, param :: params => by
    rw [arguments]
    refine (notes_expr arg).bind fun t => (notes_requireValue arg t).bind fun found => ?_
    refine notes_get.bind fun s => ?_
    dsimp only
    split
    · exact notes_arguments callee (number + 1) args params
    · exact .fail _ _
  | _, [], _ => by
    rw [arguments]
    · exact .pure _
    · intro arg args param params h
      cases h
  | _, _ :: _, [] => by
    rw [arguments]
    · exact .pure _
    · intro arg args param params _ h
      cases h

end

theorem notes_value (e : Expr) : Notes (value e) :=
  (notes_expr e).bind fun t => notes_requireValue e t

end Check

end StoragePlan
