import StoragePlan.Proofs.Declarations

/-!
What the small steps of a check require. `Steps` says what follows if a step succeeds; here it is said
when it does. A name has to be new, a type has to be known, an element has to find room, and nothing
else is asked, so a declaration can be followed line by line from the other side.
-/

namespace StoragePlan

namespace Check

variable {s : Session}

theorem requireNew_of_new {id : String} (hc : s.names.current? s.file id = none)
    (hf : s.body = none → s.memory.find? id = none) (p : Position) :
    requireNew id p s = .ok () s := by
  rw [requireNew, bind_get, hc]
  cases hb : s.body with
  | none => simp [hf hb]; rfl
  | some b => rfl

theorem requireRoom_of_le {size : Nat} (h : used s + size ≤ maxStorage) (id : String) (p : Position) :
    requireRoom id size p s = .ok () s := by
  change (if used s + size ≤ maxStorage then pure () else fail p (.outOfMemory id) : Check Unit) s =
    .ok () s
  rw [if_pos h]
  rfl

theorem baseType_of_known {names : Registry} {file : String} {a : Annotation} {base : ValueType}
    (h : match a.primitive? with
      | some p => base = .prim p
      | none => Known names file a.baseName ∧ base = .udt a.baseName) :
    baseType names file a = .ok base := by
  unfold baseType
  split
  · next p hp =>
    rw [hp] at h
    rw [h]
  · next hp =>
    rw [hp] at h
    obtain ⟨⟨x, hx, hu⟩, rfl⟩ := h
    rw [hx]
    simp [hu]

/-- An annotation is resolved if its names mean types and its dimensions are right. -/
theorem resolve_of_resolves {a : Annotation} {t : ValueType}
    (h : Resolves (Known s.names s.file) a t) : resolve a s = .ok t s := by
  obtain ⟨base, hbase, harray⟩ := h
  have hb : ofExcept (baseType s.names s.file a) s = .ok base s := by
    rw [baseType_of_known hbase]
    rfl
  refine (bind_get (f := fun s : Session => _)).trans ((bind_of_ok hb).trans ?_)
  split
  · next ha =>
    rw [if_pos ha] at harray
    obtain ⟨ds, hds, rfl⟩ := harray
    rw [hds]
    rfl
  · next ha =>
    rw [if_neg ha] at harray
    rw [harray]
    rfl

theorem sizeOf_of_size {t : ValueType} {n : Nat} (h : t.size s.memory = .ok n) (p : Position) :
    sizeOf t p s = .ok n s := by
  rw [sizeOf, bind_get, h]
  rfl

/-- What has a handle in one table gets one in every table. -/
theorem intern?_defined {types : TypeTable} {t : ValueType} {r : Handle × TypeTable}
    (h : types.intern? t = some r) : t.Defined := by
  induction t generalizing r with
  | prim p => trivial
  | udt id => trivial
  | undefined => cases h
  | array element dims ih =>
    simp only [TypeTable.intern?] at h
    split at h
    · next he => exact ih he
    · cases h

theorem intern?_of_intern? {t : ValueType} {k : Handle} {types : TypeTable}
    (h : s.names.types.intern? t = some (k, types)) :
    Check.intern? t s = .ok (some k) (withTypes s types) := by
  rw [Check.intern?, bind_get, h]
  rfl

theorem intern_of_intern? {t : ValueType} {k : Handle} {types : TypeTable}
    (h : s.names.types.intern? t = some (k, types)) (p : Position) :
    intern t p s = .ok k (withTypes s types) :=
  bind_of_ok (intern?_of_intern? h)

theorem intern_of_defined {t : ValueType} (h : t.Defined) (p : Position) :
    ∃ k types, s.names.types.intern? t = some (k, types) ∧ intern t p s = .ok k (withTypes s types) := by
  obtain ⟨⟨k, types⟩, hi⟩ :=
    Option.isSome_iff_exists.mp (TypeTable.intern?_isSome (t := s.names.types) h)
  exact ⟨k, types, hi, intern_of_intern? hi p⟩

/-- The type of an annotation gets a handle. -/
theorem intern_of_resolves {known : String → Prop} {a : Annotation} {t : ValueType}
    (h : Resolves known a t) (p : Position) :
    ∃ k types, s.names.types.intern? t = some (k, types) ∧ intern t p s = .ok k (withTypes s types) := by
  have hdefined : t.Defined := by
    obtain ⟨base, hbase, harray⟩ := h
    have hb : base.Defined := by
      split at hbase
      · rw [hbase]
        trivial
      · rw [hbase.2]
        trivial
    split at harray
    · obtain ⟨ds, _, rfl⟩ := harray
      exact hb
    · rw [harray]
      exact hb
  exact intern_of_defined hdefined p

/-- What is recorded is not refused. -/
theorem record_total (id : Nat) (ty : ValueType) :
    Ends (record id ty) s (fun a _ => a = ty) fun _ _ => False := by
  refine (intern?_ends ty).seq (fun _ _ h => h) fun o s' _ => ?_
  cases o with
  | none => exact Ends.pure rfl
  | some h => exact Ends.bind (Ends.modify (Ends.pure rfl))

end Check

end StoragePlan
