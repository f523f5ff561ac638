import StoragePlan.Typing.Size

/-!
When a type has a size. If every field of every active type is of a type that is active too, the
search for a size never meets an unknown type: it adds up, or fails because a type contains itself or
is too large. The types met on the way down are all different, so the search is deep enough.
-/

namespace StoragePlan

namespace ValueType

/-- The user defined type that a type is built on, if it is built on one, is among `known`. -/
def Based (known : String → Prop) : ValueType → Prop
  | prim _ => True
  | udt id => known id
  | array element _ => element.Based known
  | undefined => False

theorem Based.mono {known known' : String → Prop} {t : ValueType} (h : t.Based known)
    (hk : ∀ id, known id → known' id) : t.Based known' := by
  induction t with
  | prim p => trivial
  | udt id => exact hk id h
  | array element dims ih => exact ih h
  | undefined => cases h

end ValueType

namespace Tracker

/-- A type of this name is active. -/
def Active (m : Tracker) (id : String) : Prop := (m.findUdt? id).isSome

theorem active_iff {m : Tracker} {id : String} : m.Active id ↔ id ∈ m.udts.map (·.id) := by
  simp [Active, findUdt?, List.find?_isSome]

/-- The fields of active types are of types that are active as well. -/
def Closed (m : Tracker) : Prop :=
  ∀ u ∈ m.udts, ∀ f ∈ u.fields, (ValueType.ofId f.typeId).Based m.Active

end Tracker

/-- A type has no size because of how the program defines it. -/
def SizeError.Regular : SizeError → Prop
  | .recursive _ => True
  | .tooLarge _ => True
  | _ => False

namespace ValueType

variable {memory : Tracker} {e : SizeError}

theorem sizeWith_regular {udtSize : String → Except SizeError Nat} {known : String → Prop}
    (hudt : ∀ id e, known id → udtSize id = .error e → e.Regular) {t : ValueType}
    (ht : t.Based known) (h : sizeWith udtSize t = .error e) : e.Regular := by
  induction t generalizing e with
  | prim p => cases h
  | udt id => exact hudt id e ht h
  | undefined => cases ht
  | array element dims ih =>
    simp only [sizeWith, bind, Except.bind] at h
    split at h
    · next he =>
      cases h
      exact ih ht he
    · split at h
      · cases h
      · cases h
        trivial

theorem sumFields_regular {sizeOf : ValueType → Except SizeError Nat} {id : String} {sum : Nat}
    {fields : List Member} (hf : ∀ f ∈ fields, ∀ e, sizeOf (ofId f.typeId) = .error e → e.Regular)
    (h : sumFields sizeOf id sum fields = .error e) : e.Regular := by
  induction fields generalizing sum with
  | nil => cases h
  | cons f rest ih =>
    rw [List.forall_mem_cons] at hf
    simp only [sumFields, bind, Except.bind] at h
    split at h
    · next he =>
      cases h
      exact hf.1 _ he
    · split at h
      · exact ih hf.2 h
      · cases h
        trivial

/-- The types being visited differ and are active, so they are never more than the active types. -/
theorem udtSize_regular (hc : memory.Closed) {n : Nat} {visiting : List String} {id : String}
    (hn : visiting.Nodup) (hv : ∀ v ∈ visiting, memory.Active v)
    (hl : memory.udts.length < n + visiting.length) (hid : memory.Active id)
    (h : udtSize memory n visiting id = .error e) : e.Regular := by
  induction n generalizing visiting id e with
  | zero =>
    have hsub : visiting ⊆ memory.udts.map (·.id) := fun v hm => Tracker.active_iff.mp (hv v hm)
    have hle := List.Nodup.length_le_of_subset hn hsub
    rw [List.length_map] at hle
    omega
  | succ n ih =>
    unfold udtSize at h
    split at h
    · cases h
      trivial
    · next hnot =>
      have hnew : id ∉ visiting := by simpa using hnot
      split at h
      · next hnone => simp [Tracker.Active, hnone] at hid
      · next u hu =>
        refine sumFields_regular (fun f hf e he => ?_) h
        refine sizeWith_regular (fun id' e' hid' he' => ?_)
          (hc u (List.mem_of_find?_eq_some hu) f hf) he
        refine ih (List.nodup_cons.mpr ⟨hnew, hn⟩) (List.forall_mem_cons.mpr ⟨hid, hv⟩) ?_ hid' he'
        rw [List.length_cons]
        omega

/-- A type built on active types has a size unless one contains itself or is too large. -/
theorem size_regular (hc : memory.Closed) {t : ValueType} (ht : t.Based memory.Active)
    (h : t.size memory = .error e) : e.Regular :=
  sizeWith_regular (fun _ _ hid he => udtSize_regular hc List.nodup_nil (by simp) (by simp) hid he)
    ht h

end ValueType

end StoragePlan
