import StoragePlan.Proofs.Search
import StoragePlan.Storage.Tracker

/-!
What storage gains. Every change that the check of a file makes to storage, apart from opening and
closing scopes, is a `grow`: elements and types are added on top of what is there. A scope that is
opened, grown and closed again leaves storage as it was; and so does a run of scopes that is closed
down to the depth at which it began.
-/

namespace StoragePlan

namespace Tracker

/-- Storage with more elements and types, newest first: elements go to the stack if `inner` is set
and to the data segment otherwise. -/
def grow (inner : Bool) (es : List Element) (us : List Udt) (m : Tracker) : Tracker where
  dataSegment := if inner then m.dataSegment else m.dataSegment ++ es.reverse
  stack := if inner then es ++ m.stack else m.stack
  scopes := onScope (fun c => ⟨c.elements + (if inner then es.length else 0), c.udts + us.length⟩)
    m.scopes
  udts := us ++ m.udts

theorem onScope_id (cs : List ScopeCount) : onScope (fun c => c) cs = cs := by
  cases cs <;> rfl

theorem onScope_onScope (f g : ScopeCount → ScopeCount) (cs : List ScopeCount) :
    onScope g (onScope f cs) = onScope (g ∘ f) cs := by
  cases cs <;> rfl

@[simp] theorem length_onScope (f : ScopeCount → ScopeCount) (cs : List ScopeCount) :
    (onScope f cs).length = cs.length := by
  cases cs <;> rfl

@[simp] theorem grow_nil (inner : Bool) (m : Tracker) : m.grow inner [] [] = m := by
  cases inner <;> simp [grow, onScope_id]

theorem grow_grow (inner : Bool) (es es' : List Element) (us us' : List Udt) (m : Tracker) :
    (m.grow inner es us).grow inner es' us' = m.grow inner (es' ++ es) (us' ++ us) := by
  cases inner <;> simp [grow, onScope_onScope, Function.comp_def, Nat.add_assoc, Nat.add_comm]

theorem push_eq_grow (e : Element) (m : Tracker) : m.push e = m.grow true [e] [] := rfl

theorem insert_eq_grow (e : Element) (m : Tracker) : m.insert e = m.grow false [e] [] := by
  simp [insert, grow, onScope_id]

theorem addUdt_eq_grow (inner : Bool) (u : Udt) (m : Tracker) :
    m.addUdt u = m.grow inner [] [u] := by
  cases inner <;> simp [addUdt, grow]

theorem foldl_addUdt (inner : Bool) (us : List Udt) (m : Tracker) :
    us.foldl (fun m u => m.addUdt u) m = m.grow inner [] us.reverse := by
  induction us generalizing m with
  | nil => simp
  | cons u us ih =>
    rw [List.foldl_cons, ih, addUdt_eq_grow inner, grow_grow]
    simp

@[simp] theorem depth_grow (inner : Bool) (es : List Element) (us : List Udt) (m : Tracker) :
    (m.grow inner es us).depth = m.depth := by
  simp [depth, grow]

@[simp] theorem depth_openScope (m : Tracker) : m.openScope.depth = m.depth + 1 := rfl

@[simp] theorem stack_grow_false (es : List Element) (us : List Udt) (m : Tracker) :
    (m.grow false es us).stack = m.stack := rfl

@[simp] theorem udts_grow (inner : Bool) (es : List Element) (us : List Udt) (m : Tracker) :
    (m.grow inner es us).udts = us ++ m.udts := rfl

@[simp] theorem dataSegment_closeScope (m : Tracker) :
    m.closeScope.2.dataSegment = m.dataSegment := by
  unfold closeScope
  split <;> rfl

/-- What is added in a scope goes when the scope closes. -/
theorem closeScope_grow_openScope (es : List Element) (us : List Udt) (m : Tracker) :
    (m.openScope.grow true es us).closeScope.2 = m := by
  simp [openScope, grow, onScope, closeScope]

/-- The globals that a scope adds stay when it closes. -/
theorem closeScope_grow_false (es : List Element) (us : List Udt) (m : Tracker) :
    (m.openScope.grow false es us).closeScope.2 = m.grow false es [] := by
  cases hs : m.scopes <;> simp [openScope, grow, onScope, closeScope, hs]

/-! ### Closing several scopes -/

theorem closeTo_go_succ (n : Nat) (m : Tracker) :
    closeTo.go (n + 1) m = (closeTo.go n m).closeScope.2 := by
  induction n generalizing m with
  | zero => rfl
  | succ n ih => exact ih m.closeScope.2

@[simp] theorem closeTo_depth (m : Tracker) : m.closeTo m.depth = m := by
  simp [closeTo, depth, closeTo.go]

@[simp] theorem dataSegment_closeTo (d : Nat) (m : Tracker) :
    (m.closeTo d).dataSegment = m.dataSegment := by
  unfold closeTo
  induction m.scopes.length - d with
  | zero => rfl
  | succ n ih => rw [closeTo_go_succ, dataSegment_closeScope, ih]

/-- One scope more is closed by closing the others first. -/
theorem closeTo_eq_closeScope {m : Tracker} {d : Nat} (h : d + 1 ≤ m.depth) :
    m.closeTo d = (m.closeTo (d + 1)).closeScope.2 := by
  have hn : m.scopes.length - d = (m.scopes.length - (d + 1)) + 1 := by
    unfold depth at h
    omega
  rw [closeTo, hn, closeTo_go_succ, closeTo]

/-! ### Names -/

/-- No two globals share a name. -/
def Distinct (m : Tracker) : Prop := (m.dataSegment.map (·.id)).Nodup

@[simp] theorem map_element_place (o : Nat) (es : List Element) :
    (place o es).map (·.element) = es := by
  induction es generalizing o with
  | nil => rfl
  | cons e es ih => simp [place, ih]

/-- A name is found where the elements have it first. -/
theorem firstNamed?_place (id : String) (o : Nat) (es : List Element) :
    (firstNamed? id (place o es)).map (·.element) = es.find? (·.hasId id) := by
  induction es generalizing o with
  | nil => rfl
  | cons e es ih =>
    cases h : e.hasId id with
    | true => simp [place, firstNamed?, h]
    | false => simpa [place, firstNamed?, h] using ih (addCapped o e.size)

/-- What a name finds: the newest such element of the stack, else the first global. -/
theorem find?_element (m : Tracker) (id : String) :
    (m.find? id).map (·.element) =
      (m.stack.find? (·.hasId id)).or (m.dataSegment.find? (·.hasId id)) := by
  unfold find? globals
  rw [← firstNamed?_place id 0 m.stack, ← firstNamed?_place id 0 m.dataSegment]
  cases firstNamed? id (place 0 m.stack) with
  | some p => rfl
  | none => cases firstNamed? id (place 0 m.dataSegment) <;> rfl

theorem not_mem_of_find?_eq_none {m : Tracker} {id : String} (h : m.find? id = none) :
    some id ∉ m.dataSegment.map (·.id) := by
  have hf := find?_element m id
  rw [h, Option.map_none, eq_comm, Option.or_eq_none_iff] at hf
  intro hm
  obtain ⟨e, he, hid⟩ := List.mem_map.mp hm
  have := List.find?_eq_none.mp hf.2 e he
  simp [Element.hasId, hid] at this

theorem Distinct.insert {m : Tracker} (h : m.Distinct) {e : Element} {id : String}
    (he : e.id = some id) (hf : m.find? id = none) : (m.insert e).Distinct := by
  have hn := not_mem_of_find?_eq_none hf
  unfold Distinct at h ⊢
  simp only [Tracker.insert, List.map_append, List.map_cons, List.map_nil]
  rw [List.nodup_append]
  refine ⟨h, by simp, ?_⟩
  intro a ha b hb hab
  rw [List.mem_singleton.mp hb, he] at hab
  exact hn (hab ▸ ha)

/-- Among globals with different names, each is the one its name finds. -/
theorem Distinct.find?_eq {m : Tracker} (h : m.Distinct) {e : Element} {id : String}
    (he : e ∈ m.dataSegment) (hid : e.id = some id) :
    m.dataSegment.find? (·.hasId id) = some e := by
  have hf := find?_eq_of_nodup h he
  rwa [hid] at hf

end Tracker

end StoragePlan
