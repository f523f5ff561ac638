import StoragePlan.Names.SymbolTable

/-!
Searching lists, and changing the member that a search finds.
-/

namespace StoragePlan

/-- Where no two members share a key, a search by key finds the member that has it. -/
theorem find?_eq_of_nodup {α κ : Type} [BEq κ] [LawfulBEq κ] {key : α → κ} {as : List α} {a : α}
    (hn : (as.map key).Nodup) (ha : a ∈ as) : as.find? (fun b => key b == key a) = some a := by
  induction as with
  | nil => simp at ha
  | cons b rest ih =>
    rw [List.map_cons, List.nodup_cons] at hn
    rcases List.mem_cons.mp ha with rfl | ha
    · simp
    · have hne : key b ≠ key a := fun hb => hn.1 (List.mem_map.mpr ⟨a, ha, hb.symm⟩)
      simpa [List.find?_cons, hne] using ih hn.2 ha

section UpdateFirst

variable {α : Type} {test : α → Bool} {f g : α → α}

theorem updateFirst_id (as : List α) : updateFirst test (fun a => a) as = as := by
  induction as with
  | nil => rfl
  | cons a rest ih => simp [updateFirst, ih]

theorem updateFirst_updateFirst (hf : ∀ a, test a → test (f a)) (as : List α) :
    updateFirst test g (updateFirst test f as) = updateFirst test (g ∘ f) as := by
  induction as with
  | nil => rfl
  | cons a rest ih =>
    cases ha : test a with
    | true => simp [updateFirst, ha, hf a ha]
    | false => simp [updateFirst, ha, ih]

theorem updateFirst_of_find?_eq_none {as : List α} (h : as.find? test = none) :
    updateFirst test f as = as := by
  induction as with
  | nil => rfl
  | cons a rest ih =>
    cases ha : test a with
    | true => simp [ha] at h
    | false => simp [updateFirst, ha, ih (by simpa [ha] using h)]

theorem find?_updateFirst (hf : ∀ a, test a → test (f a)) (as : List α) :
    (updateFirst test f as).find? test = (as.find? test).map f := by
  induction as with
  | nil => rfl
  | cons a rest ih =>
    cases ha : test a with
    | true => simp [updateFirst, ha, hf a ha]
    | false => simp [updateFirst, ha, ih]

/-- A change of one member is not seen by a search that skips it. -/
theorem find?_updateFirst_of_skip {other : α → Bool}
    (hf : ∀ a, test a → other a = false ∧ other (f a) = false) (as : List α) :
    (updateFirst test f as).find? other = as.find? other := by
  induction as with
  | nil => rfl
  | cons a rest ih =>
    cases ha : test a with
    | true => simp [updateFirst, ha, hf a ha]
    | false => simp [updateFirst, ha, List.find?_cons, ih]

theorem updateFirst_append_cons {as : List α} {x : α} (ha : ∀ a ∈ as, test a = false)
    (hx : test x = true) (bs : List α) : updateFirst test f (as ++ x :: bs) = as ++ f x :: bs := by
  induction as with
  | nil => simp [updateFirst, hx]
  | cons a rest ih =>
    rw [List.forall_mem_cons] at ha
    simp [updateFirst, ha.1, ih ha.2]

theorem map_updateFirst {β : Type} {k : α → β} (hf : ∀ a, k (f a) = k a) (as : List α) :
    (updateFirst test f as).map k = as.map k := by
  induction as with
  | nil => rfl
  | cons a rest ih =>
    cases ha : test a with
    | true => simp [updateFirst, ha, hf]
    | false => simp [updateFirst, ha, ih]

theorem length_updateFirst (as : List α) : (updateFirst test f as).length = as.length := by
  have hmap : (updateFirst test f as).map (fun _ => ()) = as.map fun _ => () :=
    map_updateFirst (f := f) (fun _ => rfl) as
  simpa using congrArg List.length hmap

theorem forall_mem_updateFirst {P : α → Prop} (hf : ∀ a, P a → P (f a)) {as : List α}
    (h : ∀ a ∈ as, P a) : ∀ a ∈ updateFirst test f as, P a := by
  induction as with
  | nil => exact h
  | cons a rest ih =>
    rw [List.forall_mem_cons] at h
    unfold updateFirst
    split
    · exact List.forall_mem_cons.mpr ⟨hf a h.1, h.2⟩
    · exact List.forall_mem_cons.mpr ⟨h.1, ih h.2⟩

/-- The change is made where the search finds the member. -/
theorem getElem?_updateFirst (as : List α) (i : Nat) : (updateFirst test f as)[i]? =
    if as.findIdx? test = some i then as[i]?.map f else as[i]? := by
  induction as generalizing i with
  | nil => simp [updateFirst]
  | cons a rest ih =>
    cases ha : test a with
    | true => cases i <;> simp [updateFirst, ha, List.findIdx?_cons]
    | false => cases i <;> simp [updateFirst, ha, List.findIdx?_cons, ih]

/-- The first list that has such a member is changed at its first one. -/
theorem updateFirstIn_eq (ass : List (List α)) :
    updateFirstIn test f ass = updateFirst (·.any test) (updateFirst test f) ass := by
  induction ass with
  | nil => rfl
  | cons as rest ih => rw [updateFirstIn, updateFirst, ih]

end UpdateFirst

/-- The first answer is the one for the first member that has one. -/
theorem findSome?_eq_bind_find? {α β : Type} {g : α → Option β} (as : List α) :
    as.findSome? g = (as.find? fun a => (g a).isSome).bind g := by
  induction as with
  | nil => rfl
  | cons a rest ih =>
    rw [List.findSome?_cons, List.find?_cons]
    cases ha : g a with
    | some b => simp [ha]
    | none => simpa using ih

end StoragePlan
