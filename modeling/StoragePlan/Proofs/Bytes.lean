import Mathlib.Algebra.GroupWithZero.Nat
import StoragePlan.Typing.Size

/-!
Exact sizes. Sums of sizes are held at the largest word, products are checked against it; here the
same sums and products are taken without a limit. As long as a list of elements fits into the address
space its size and its offsets are exact, and so the elements tile the addresses from zero up to their
size. Where a type has a size, this is the exact number of its bytes.
-/

namespace StoragePlan

theorem maxStorage_le_wordLimit : maxStorage ≤ wordLimit := by decide

/-! ### Lists of elements -/

/-- The bytes of all elements together, without a limit. -/
def bytesOf (es : List Element) : Nat := (es.map (·.size)).sum

@[simp] theorem bytesOf_nil : bytesOf [] = 0 := rfl

@[simp] theorem bytesOf_cons (e : Element) (es : List Element) :
    bytesOf (e :: es) = e.size + bytesOf es := by
  simp [bytesOf]

@[simp] theorem bytesOf_append (es es' : List Element) :
    bytesOf (es ++ es') = bytesOf es + bytesOf es' := by
  simp [bytesOf]

@[simp] theorem bytesOf_reverse (es : List Element) : bytesOf es.reverse = bytesOf es := by
  induction es with
  | nil => rfl
  | cons e es ih =>
    rw [List.reverse_cons, bytesOf_append, ih, bytesOf_cons, bytesOf_cons, bytesOf_nil]
    omega

theorem bytesOf_take_le_bytesOf (es : List Element) (i : Nat) : bytesOf (es.take i) ≤ bytesOf es :=
  calc bytesOf (es.take i)
    _ ≤ bytesOf (es.take i) + bytesOf (es.drop i) := Nat.le_add_right _ _
    _ = bytesOf es := by rw [← bytesOf_append, List.take_append_drop]

theorem bytesOf_take_le {es : List Element} {i j : Nat} (h : i ≤ j) :
    bytesOf (es.take i) ≤ bytesOf (es.take j) := by
  have htake : es.take i = (es.take j).take i := by rw [List.take_take, Nat.min_eq_left h]
  rw [htake]
  exact bytesOf_take_le_bytesOf (es.take j) i

theorem foldl_addCapped (es : List Element) {n : Nat} (hn : n ≤ wordLimit) :
    es.foldl (fun total e => addCapped total e.size) n = min (n + bytesOf es) wordLimit := by
  induction es generalizing n with
  | nil =>
    rw [List.foldl_nil, bytesOf_nil]
    omega
  | cons e es ih =>
    have hcapped : addCapped n e.size ≤ wordLimit := Nat.min_le_right _ _
    rw [List.foldl_cons, ih hcapped, bytesOf_cons, addCapped]
    omega

/-- The size of a list is the exact one, held at the largest word. -/
theorem totalSize_eq (es : List Element) : totalSize es = min (bytesOf es) wordLimit := by
  rw [totalSize, foldl_addCapped es (Nat.zero_le _), Nat.zero_add]

theorem totalSize_eq_bytesOf {es : List Element} (h : bytesOf es ≤ maxStorage) :
    totalSize es = bytesOf es := by
  have hmax := maxStorage_le_wordLimit
  rw [totalSize_eq]
  omega

/-- A size that leaves room is exact. -/
theorem bytesOf_add_le {es : List Element} {n : Nat} (h : totalSize es + n ≤ maxStorage) :
    bytesOf es + n ≤ maxStorage := by
  have hmax : maxStorage < wordLimit := by decide
  rw [totalSize_eq] at h
  omega

/-- The stack fits into the address space. -/
def Tracker.Fits (m : Tracker) : Prop := bytesOf m.stack ≤ maxStorage

/-! ### Places -/

/-- Each element is placed behind the bytes of those before it, held at the largest word. -/
theorem getElem?_place_capped {o : Nat} (ho : o ≤ wordLimit) (es : List Element) (i : Nat) :
    (place o es)[i]? = es[i]?.map fun e => ⟨e, addCapped o (bytesOf (es.take i))⟩ := by
  induction es generalizing o i with
  | nil => simp [place]
  | cons e es ih =>
    cases i with
    | zero => simp [place, addCapped, Nat.min_eq_left ho]
    | succ i =>
      have hcapped : addCapped o e.size ≤ wordLimit := Nat.min_le_right _ _
      have hsum : addCapped (addCapped o e.size) (bytesOf (es.take i)) =
          addCapped o (bytesOf ((e :: es).take (i + 1))) := by
        rw [List.take_succ_cons, bytesOf_cons]
        unfold addCapped
        omega
      rw [place, List.getElem?_cons_succ, List.getElem?_cons_succ, ih hcapped, hsum]

/-- Each element is placed behind the bytes of those before it. -/
theorem getElem?_place {o : Nat} {es : List Element} (h : o + bytesOf es ≤ wordLimit) (i : Nat) :
    (place o es)[i]? = es[i]?.map fun e => ⟨e, o + bytesOf (es.take i)⟩ := by
  have hle : o + bytesOf (es.take i) ≤ wordLimit :=
    Nat.le_trans (Nat.add_le_add_left (bytesOf_take_le_bytesOf es i) o) h
  rw [getElem?_place_capped (by omega), addCapped, Nat.min_eq_left hle]

/-- What follows some elements is placed behind their bytes, held at the largest word. -/
theorem place_append_capped {o : Nat} (ho : o ≤ wordLimit) (es es' : List Element) :
    place o (es ++ es') = place o es ++ place (addCapped o (bytesOf es)) es' := by
  induction es generalizing o with
  | nil =>
    rw [bytesOf_nil, addCapped, Nat.add_zero, Nat.min_eq_left ho]
    rfl
  | cons e es ih =>
    have hcapped : addCapped o e.size ≤ wordLimit := Nat.min_le_right _ _
    have hsum : addCapped (addCapped o e.size) (bytesOf es) = addCapped o (bytesOf (e :: es)) := by
      rw [bytesOf_cons]
      unfold addCapped
      omega
    rw [List.cons_append, place, place, ih hcapped, hsum, List.cons_append]

/-- What follows some elements is placed behind their bytes. -/
theorem place_append {o : Nat} {es es' : List Element} (h : o + bytesOf es ≤ wordLimit) :
    place o (es ++ es') = place o es ++ place (o + bytesOf es) es' := by
  rw [place_append_capped (by omega), addCapped, Nat.min_eq_left h]

/-- The address belongs to the placed element of this index. -/
def Occupies (ps : List Placed) (i address : Nat) : Prop :=
  ∃ p, ps[i]? = some p ∧ p.offset ≤ address ∧ address < p.offset + p.element.size

/-- The addresses of placed elements are those between the first offset and the end. -/
theorem occupied_iff {o : Nat} {es : List Element} (h : o + bytesOf es ≤ wordLimit)
    (address : Nat) :
    (∃ i, Occupies (place o es) i address) ↔ o ≤ address ∧ address < o + bytesOf es := by
  induction es generalizing o with
  | nil =>
    simp only [Occupies, place, bytesOf_nil]
    constructor
    · rintro ⟨i, p, hp, _⟩
      simp at hp
    · omega
  | cons e es ih =>
    rw [bytesOf_cons] at h ⊢
    have hexact : addCapped o e.size = o + e.size := by
      rw [addCapped]
      omega
    have hrest := ih (o := o + e.size) (by omega)
    rw [place, hexact]
    constructor
    · rintro ⟨i, p, hp, hlow, hhigh⟩
      cases i with
      | zero =>
        cases hp
        dsimp only at hlow hhigh
        omega
      | succ i =>
        have hbounds := hrest.mp ⟨i, p, hp, hlow, hhigh⟩
        omega
    · rintro ⟨hlow, hhigh⟩
      by_cases hfirst : address < o + e.size
      · exact ⟨0, _, rfl, hlow, hfirst⟩
      · obtain ⟨i, p, hp, hin⟩ := hrest.mpr ⟨by omega, by omega⟩
        exact ⟨i + 1, p, hp, hin⟩

/-- What an element occupies ends where the next one begins. -/
theorem Occupies.bounds {es : List Element} (h : bytesOf es ≤ wordLimit) {i address : Nat}
    (ho : Occupies (place 0 es) i address) :
    bytesOf (es.take i) ≤ address ∧ address < bytesOf (es.take (i + 1)) := by
  obtain ⟨p, hp, hlow, hhigh⟩ := ho
  rw [getElem?_place (by omega), Nat.zero_add, Option.map_eq_some_iff] at hp
  obtain ⟨e, he, rfl⟩ := hp
  refine ⟨hlow, ?_⟩
  rw [List.take_add_one, he, Option.toList_some, bytesOf_append, bytesOf_cons, bytesOf_nil]
  exact hhigh

/-- No address belongs to two elements. -/
theorem Occupies.unique {es : List Element} (h : bytesOf es ≤ wordLimit) {i j address : Nat}
    (hi : Occupies (place 0 es) i address) (hj : Occupies (place 0 es) j address) : i = j := by
  obtain ⟨hlow, hhigh⟩ := hi.bounds h
  obtain ⟨hlow', hhigh'⟩ := hj.bounds h
  rcases Nat.lt_trichotomy i j with hlt | heq | hlt
  · have hle : bytesOf (es.take (i + 1)) ≤ bytesOf (es.take j) := bytesOf_take_le hlt
    omega
  · exact heq
  · have hle : bytesOf (es.take (j + 1)) ≤ bytesOf (es.take i) := bytesOf_take_le hlt
    omega

/-! ### Types -/

namespace ValueType

/-- The bytes of a type whose user defined types have the bytes `udtBytes`. -/
def bytesWith (udtBytes : String → Nat) : ValueType → Nat
  | prim p => p.size
  | udt id => udtBytes id
  | array element dims => bytesWith udtBytes element * dims.prod
  | undefined => 0

/-- The types with other names. -/
def others (us : List Udt) (id : String) : List Udt := us.filter (·.id != id)

theorem length_others_lt {us : List Udt} {id : String} {u : Udt}
    (h : us.find? (·.id == id) = some u) : (others us id).length < us.length := by
  rw [others, List.length_filter_lt_length_iff_exists]
  exact ⟨u, List.mem_of_find?_eq_some h, by simpa using List.find?_some h⟩

/-- The bytes of a user defined type: those of its fields together. What is inside of the type is
built from the other types. -/
def udtBytes (us : List Udt) (id : String) : Nat :=
  match _h : us.find? (·.id == id) with
  | none => 0
  | some u => (u.fields.map fun f => (ofId f.typeId).bytesWith (udtBytes (others us id))).sum
termination_by us.length
decreasing_by exact length_others_lt _h

/-- The bytes of a type among the types `us`, without a limit. -/
def bytes (us : List Udt) (t : ValueType) : Nat := t.bytesWith (udtBytes us)

theorem scale?_eq_some {size n : Nat} {dims : List Nat} (h : scale? size dims = some n) :
    size * dims.prod = n := by
  induction dims generalizing size with
  | nil =>
    rw [List.prod_nil, Nat.mul_one]
    exact Option.some.inj h
  | cons d dims ih =>
    unfold scale? at h
    split at h
    · rw [List.prod_cons, ← Nat.mul_assoc]
      exact ih h
    · cases h

theorem sizeWith_eq_ok {udtSize : String → Except SizeError Nat} {udtBytes : String → Nat}
    (hudt : ∀ id n, udtSize id = .ok n → udtBytes id = n) {t : ValueType} {n : Nat}
    (h : sizeWith udtSize t = .ok n) : t.bytesWith udtBytes = n := by
  induction t generalizing n with
  | prim p => exact Except.ok.inj h
  | udt id => exact hudt id n h
  | undefined => cases h
  | array element dims ih =>
    simp only [sizeWith, bind, Except.bind] at h
    split at h
    · cases h
    · next size hs =>
      split at h
      · next m hm =>
        cases h
        rw [bytesWith, ih hs]
        exact scale?_eq_some (Option.filter_eq_some_iff.mp hm).1
      · cases h

theorem sumFields_eq_ok {sizeOf : ValueType → Except SizeError Nat} {bytes : ValueType → Nat}
    (hsize : ∀ t n, sizeOf t = .ok n → bytes t = n) {id : String} {sum n : Nat}
    {fields : List Member} (h : sumFields sizeOf id sum fields = .ok n) :
    sum + (fields.map fun f => bytes (ofId f.typeId)).sum = n := by
  induction fields generalizing sum with
  | nil => exact Except.ok.inj h
  | cons f fields ih =>
    simp only [sumFields, bind, Except.bind] at h
    split at h
    · cases h
    · next size hs =>
      split at h
      · have hrest := ih h
        rw [List.map_cons, List.sum_cons, hsize _ _ hs]
        omega
      · cases h

/-- The search for a size leaves out the types it is inside of. -/
theorem udtSize_eq_ok {memory : Tracker} {n size : Nat} {visiting : List String} {id : String}
    (h : udtSize memory n visiting id = .ok size) :
    udtBytes (memory.udts.filter fun u => !visiting.contains u.id) id = size := by
  induction n generalizing visiting id size with
  | zero => cases h
  | succ n ih =>
    unfold udtSize at h
    split at h
    · cases h
    · next hnot =>
      split at h
      · cases h
      · next u hu =>
        have hfind : (memory.udts.filter fun u => !visiting.contains u.id).find? (·.id == id) =
            some u := by
          rw [List.find?_filter, ← hu, Tracker.findUdt?]
          congr 1
          funext v
          by_cases hv : v.id = id
          · simpa [hv] using hnot
          · simp [hv]
        have hrest := sumFields_eq_ok (fun t n => sizeWith_eq_ok fun id n => ih) h
        rw [udtBytes]
        split
        · next hnone => cases hfind.symm.trans hnone
        · next v hv =>
          cases hfind.symm.trans hv
          have hothers : others (memory.udts.filter fun u => !visiting.contains u.id) id =
              memory.udts.filter fun u => !(id :: visiting).contains u.id := by
            rw [others, List.filter_filter]
            congr 1
            funext v
            by_cases hid : v.id = id <;> simp [hid]
          rw [← hrest, Nat.zero_add, hothers]

/-- Where a type has a size, it is the exact one. -/
theorem size_eq_ok {t : ValueType} {memory : Tracker} {n : Nat} (h : t.size memory = .ok n) :
    t.bytes memory.udts = n := by
  refine sizeWith_eq_ok (fun id n hid => ?_) h
  have hexact := udtSize_eq_ok hid
  rwa [List.filter_eq_self.mpr (by simp)] at hexact

end ValueType

end StoragePlan
