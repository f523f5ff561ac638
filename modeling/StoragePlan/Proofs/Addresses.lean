import StoragePlan.Proofs.Levels
import StoragePlan.Proofs.Storage

/-!
One name, one address. The offset of an element is computed along several lists: the innermost
scope, the whole stack, what a closing scope gives back, the data segment. All of them are sums of the
sizes of the elements before it, so every way to ask for the address of a name gives the same one.
-/

namespace StoragePlan

open Tracker

variable {t : Tracker} {id : String}

/-! ### The offset of an element -/

/-- The first element with a name is found where it stands, whatever the offsets are. -/
theorem firstNamed?_place_index (id : String) (o : Nat) (es : List Element) :
    firstNamed? id (place o es) =
      (es.findIdx? (·.hasId id)).bind fun k => (place o es)[k]? := by
  induction es generalizing o with
  | nil => rfl
  | cons e es ih =>
    rw [place, firstNamed?, List.find?_cons, List.findIdx?_cons]
    cases he : e.hasId id with
    | true => rfl
    | false =>
      have hrest := ih (addCapped o e.size)
      rw [firstNamed?] at hrest
      simp only [hrest, Bool.false_eq_true, if_false, Option.bind_map]
      rfl

theorem firstNamed?_place_eq_none {o : Nat} {es : List Element} :
    firstNamed? id (place o es) = none ↔ ∀ e ∈ es, e.hasId id = false := by
  rw [← Option.map_eq_none_iff, Tracker.firstNamed?_place, List.find?_eq_none]
  simp only [Bool.not_eq_true]

/-! ### Asking -/

/-- Where a name is on the stack, counted from the top. -/
def Tracker.topmost? (t : Tracker) (id : String) : Option Nat := t.stack.findIdx? (·.hasId id)

/-- With a scope open, a look-up in that scope is one in what the scope would give back. -/
theorem findCurrent?_eq (h : t.scopes ≠ []) :
    t.findCurrent? id = (firstNamed? id t.closeScope.1).map .stack := by
  obtain ⟨s, outer, hs⟩ := List.exists_cons_of_ne_nil h
  simp [findCurrent?, closeScope, hs]

theorem find?_eq_global {p : Placed} : t.find? id = some (.global p) ↔
    firstNamed? id t.globals = some p ∧ ∀ e ∈ t.stack, e.hasId id = false := by
  rw [find?, ← firstNamed?_place_eq_none (o := 0)]
  cases firstNamed? id (place 0 t.stack) <;> simp

theorem find?_eq_stack {k : Nat} {e : Element} (hk : t.topmost? id = some k)
    (he : t.stack[k]? = some e) :
    t.find? id = some (.stack ⟨e, addCapped 0 (bytesOf (t.stack.take k))⟩) := by
  have hplaced : firstNamed? id (place 0 t.stack) =
      some ⟨e, addCapped 0 (bytesOf (t.stack.take k))⟩ := by
    rw [topmost?] at hk
    rw [firstNamed?_place_index, hk, Option.bind_some, getElem?_place_capped (Nat.zero_le _), he,
      Option.map_some]
  rw [find?, hplaced]

/-! ### Globals stay where they are -/

theorem dataSegment_perform {op : Operation} (h : op ≠ .clear) (t : Tracker) :
    t.dataSegment <+: (Tracker.perform op t).2.dataSegment := by
  cases op with
  | insert e => exact List.prefix_append _ _
  | push e => exact List.prefix_refl _
  | pop =>
    simp only [Tracker.perform, pop]
    split <;> exact List.prefix_refl _
  | openScope => exact List.prefix_refl _
  | closeScope =>
    simp only [Tracker.perform, closeScope]
    split <;> exact List.prefix_refl _
  | addUdt u => exact List.prefix_refl _
  | clear => exact absurd rfl h

theorem dataSegment_performAll {ops : List Operation} (h : .clear ∉ ops) (t : Tracker) :
    t.dataSegment <+: (performAll Tracker.perform ops t).2.dataSegment := by
  induction ops generalizing t with
  | nil => exact List.prefix_refl _
  | cons op ops ih =>
    rw [List.mem_cons, not_or] at h
    exact (dataSegment_perform (Ne.symm h.1) t).trans (ih h.2 _)

/-- The offset that an insertion answers is that of the element for good. -/
theorem globals_of_insert {later : List Operation} (h : .clear ∉ later) (e : Element)
    (t : Tracker) :
    (performAll Tracker.perform later (t.insert e)).2.globals[t.dataSegment.length]? =
      some ⟨e, t.dataSize⟩ := by
  obtain ⟨more, hmore⟩ := dataSegment_performAll h (t.insert e)
  have hsegment : (performAll Tracker.perform later (t.insert e)).2.dataSegment =
      t.dataSegment ++ e :: more := by
    rw [← hmore, Tracker.insert, List.append_assoc, List.singleton_append]
  have hsize : addCapped 0 (bytesOf t.dataSegment) = t.dataSize := by
    rw [dataSize, totalSize_eq, addCapped, Nat.zero_add]
  rw [globals, hsegment, getElem?_place_capped (Nat.zero_le _)]
  simp [hsize]

/-! ### Closing a scope -/

/-- A closing scope gives back the top of the stack and leaves the rest. -/
theorem stack_closeScope (t : Tracker) :
    t.stack = t.closeScope.1.map (·.element) ++ t.closeScope.2.stack := by
  unfold closeScope
  split
  · rfl
  · simp

/-- What is above the name stays above it, less what the scope gives back. -/
theorem topmost?_closeScope {k : Nat} (hk : t.topmost? id = some k)
    (hbelow : t.closeScope.1.length ≤ k) :
    t.closeScope.2.topmost? id = some (k - t.closeScope.1.length) := by
  rw [topmost?, stack_closeScope t, List.findIdx?_append, List.length_map] at hk
  cases habove : (t.closeScope.1.map (·.element)).findIdx? (·.hasId id) with
  | some j =>
    obtain ⟨hj, -, -⟩ := List.findIdx?_eq_some_iff_getElem.mp habove
    rw [habove, Option.some_or, Option.some_inj] at hk
    rw [List.length_map] at hj
    omega
  | none =>
    rw [habove, Option.none_or, Option.map_eq_some_iff] at hk
    obtain ⟨i, hi, rfl⟩ := hk
    rw [topmost?, hi, Nat.add_sub_cancel]

/-- Without saturation, what lies below a scope comes nearer to the top by the bytes that the scope
gives back. -/
theorem find?_closeScope {k : Nat} {e : Element} (hfits : bytesOf t.stack ≤ wordLimit)
    (hk : t.topmost? id = some k) (he : t.stack[k]? = some e)
    (hbelow : t.closeScope.1.length ≤ k) :
    ∃ n, t.find? id = some (.stack ⟨e, bytesOf (t.closeScope.1.map (·.element)) + n⟩) ∧
      t.closeScope.2.find? id = some (.stack ⟨e, n⟩) := by
  have hstack := stack_closeScope t
  generalize hreleased : t.closeScope.1.map (·.element) = released at hstack ⊢
  have hlength : t.closeScope.1.length = released.length := by rw [← hreleased, List.length_map]
  rw [hlength] at hbelow
  have htake : t.stack.take k =
      released ++ t.closeScope.2.stack.take (k - released.length) := by
    rw [hstack, List.take_append, List.take_of_length_le hbelow]
  have he' : t.closeScope.2.stack[k - released.length]? = some e := by
    rw [← he, hstack, List.getElem?_append_right hbelow]
  have hle : bytesOf released + bytesOf (t.closeScope.2.stack.take (k - released.length)) ≤
      wordLimit := by
    rw [← bytesOf_append, ← htake]
    exact Nat.le_trans (bytesOf_take_le_bytesOf t.stack k) hfits
  refine ⟨bytesOf (t.closeScope.2.stack.take (k - released.length)), ?_, ?_⟩
  · rw [find?_eq_stack hk he, htake, bytesOf_append, addCapped, Nat.zero_add, Nat.min_eq_left hle]
  · have hk' := topmost?_closeScope hk (hlength ▸ hbelow)
    rw [hlength] at hk'
    rw [find?_eq_stack hk' he', addCapped, Nat.zero_add, Nat.min_eq_left (by omega)]

/-! ### All ways agree -/

/-- What the ways to ask for the address of a name have to do with each other. -/
structure Tracker.OneAddress (t : Tracker) (id : String) : Prop where
  /-- A look-up in the innermost scope gives what the scope would give back. -/
  current : t.scopes ≠ [] → t.findCurrent? id = (firstNamed? id t.closeScope.1).map .stack
  /-- A global is found where the data segment lists it, if the stack does not hide it. -/
  global : ∀ p, t.find? id = some (.global p) ↔
    firstNamed? id t.globals = some p ∧ ∀ e ∈ t.stack, e.hasId id = false
  /-- An insertion answers the offset that the element keeps. -/
  inserted : ∀ e later, .clear ∉ later →
    ∃ n, (performAll Tracker.perform (.insert e :: later) t).1.head? = some (.offset n) ∧
      (performAll Tracker.perform (.insert e :: later) t).2.globals[t.dataSegment.length]? =
        some ⟨e, n⟩
  /-- An element below the innermost scope is the same when the scope has closed, and its offset is
  less by the bytes that the scope gave back. -/
  closed : bytesOf t.stack ≤ wordLimit → ∀ k, t.topmost? id = some k →
    t.closeScope.1.length ≤ k →
    ∃ e n, t.stack[k]? = some e ∧
      t.find? id = some (.stack ⟨e, bytesOf (t.closeScope.1.map (·.element)) + n⟩) ∧
      t.closeScope.2.topmost? id = some (k - t.closeScope.1.length) ∧
      t.closeScope.2.find? id = some (.stack ⟨e, n⟩)

theorem Tracker.oneAddress (t : Tracker) (id : String) : t.OneAddress id where
  current := findCurrent?_eq
  global _ := find?_eq_global
  inserted e later h := ⟨t.dataSize, rfl, globals_of_insert h e t⟩
  closed hfits k hk hbelow := by
    obtain ⟨hlt, -, -⟩ := List.findIdx?_eq_some_iff_getElem.mp hk
    have he : t.stack[k]? = some t.stack[k] := List.getElem?_eq_getElem hlt
    obtain ⟨n, hbefore, hafter⟩ := find?_closeScope hfits hk he hbelow
    exact ⟨t.stack[k], n, he, hbefore, topmost?_closeScope hk hbelow, hafter⟩

/-- Whatever was done to storage, every way to ask for the address of a name gives the same one. -/
theorem addresses_agree (ops : List Operation) (id : String) :
    (performAll Tracker.perform ops .empty).2.OneAddress id :=
  Tracker.oneAddress _ id

-- The anonymous element and the second `a` are counted on the way down to `b`.
example :
    let t := (performAll Tracker.perform
      [.insert (.named "b" "u8" 1 0), .push (.named "b" "u16" 2 0), .openScope,
        .push (.named "a" "u8" 1 0), .push (.anonymous "u32" 4 0), .push (.named "a" "u16" 2 0)]
      .empty).2
    t.find? "b" = some (.stack ⟨.named "b" "u16" 2 0, 7⟩) ∧
      t.closeScope.1.map (·.offset) = [0, 2, 6] ∧
      t.closeScope.2.find? "b" = some (.stack ⟨.named "b" "u16" 2 0, 0⟩) := by
  decide

end StoragePlan
