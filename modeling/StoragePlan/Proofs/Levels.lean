import StoragePlan.Proofs.Bytes
import StoragePlan.Storage.Tracker

/-!
Storage as a stack of levels. A level holds the elements and the types that were added while its scope
was the innermost one, and below all scopes lies a base level. Storage itself keeps one flat list of
elements, one of types, and for every scope only how many of them are its own. Flattening the levels
gives such lists, every operation commutes with it, and so storage answers what the levels answer.
-/

namespace StoragePlan

/-! ### Levels -/

/-- What was added to one scope, oldest first. -/
structure Level where
  elements : List Element
  udts : List Udt
  deriving DecidableEq, Repr

namespace Level

def empty : Level := ⟨[], []⟩

def push (e : Element) (l : Level) : Level := { l with elements := l.elements ++ [e] }

def addUdt (u : Udt) (l : Level) : Level := { l with udts := l.udts ++ [u] }

/-- The level without its newest element. -/
def dropNewest (l : Level) : Level := { l with elements := l.elements.dropLast }

def count (l : Level) : ScopeCount := ⟨l.elements.length, l.udts.length⟩

end Level

/-- The data segment, the level below all scopes, and the levels of the open scopes, innermost
first. -/
structure Levels where
  dataSegment : List Element
  base : Level
  opened : List Level
  deriving DecidableEq, Repr

namespace Levels

def empty : Levels := ⟨[], .empty, []⟩

/-- All levels, innermost first. -/
def all (m : Levels) : List Level := m.opened ++ [m.base]

/-- Changes the innermost level, which is the base if no scope is open. -/
def onInnermost (f : Level → Level) (m : Levels) : Levels :=
  match m.opened with
  | [] => { m with base := f m.base }
  | l :: outer => { m with opened := f l :: outer }

/-- Takes the newest element of the innermost open level that has any. -/
def popOpened : List Level → Option (Element × List Level)
  | [] => none
  | l :: outer =>
    match l.elements.getLast? with
    | some e => some (e, l.dropNewest :: outer)
    | none => (popOpened outer).map fun r => (r.1, l :: r.2)

/-- Takes the newest element of the innermost level that has any, at last of the base. -/
def pop (m : Levels) : Option Element × Levels :=
  match popOpened m.opened with
  | some (e, opened) => (some e, { m with opened })
  | none => (m.base.elements.getLast?, { m with base := m.base.dropNewest })

/-- Removes the innermost open level and gives its elements, last first. -/
def closeScope (m : Levels) : List Placed × Levels :=
  match m.opened with
  | [] => ([], m)
  | l :: outer => (place 0 l.elements.reverse, { m with opened := outer })

/-! ### What levels answer -/

/-- The innermost level, which is the base if no scope is open. -/
def innermost (m : Levels) : Level := m.opened.head?.getD m.base

/-- Looks for a name through levels, the first of which begins `offset` bytes below the top. -/
def searchFrom (id : String) (offset : Nat) : List Level → Option Placed
  | [] => none
  | l :: outer =>
    (Tracker.firstNamed? id (place offset l.elements.reverse)).or
      (searchFrom id (addCapped offset (bytesOf l.elements)) outer)

def find? (m : Levels) (id : String) : Option Location :=
  ((searchFrom id 0 m.all).map .stack).or
    ((Tracker.firstNamed? id (place 0 m.dataSegment)).map .global)

def findCurrent? (m : Levels) (id : String) : Option Location :=
  (searchFrom id 0 [m.innermost]).map .stack

/-- The newest type of a level with a name. -/
def findUdtIn? (id : String) (l : Level) : Option Udt := l.udts.reverse.find? (·.id == id)

def findUdt? (m : Levels) (id : String) : Option Udt := m.all.findSome? (findUdtIn? id)

def findUdtCurrent? (m : Levels) (id : String) : Option Udt := findUdtIn? id m.innermost

/-- All types, oldest first. -/
def udts (m : Levels) : List Udt := m.all.reverse.flatMap (·.udts)

def stackLength (m : Levels) : Nat := (m.all.map (·.elements.length)).sum

def stackSize (m : Levels) : Nat := min (m.all.map fun l => bytesOf l.elements).sum wordLimit

def dataSize (m : Levels) : Nat := min (bytesOf m.dataSegment) wordLimit

end Levels

/-! ### Operations -/

/-- What can be asked of storage while a program is checked. -/
inductive Operation where
  | insert (e : Element)
  | push (e : Element)
  | pop
  | openScope
  | closeScope
  | addUdt (u : Udt)
  | clear
  deriving DecidableEq, Repr

/-- What an operation gives back. -/
inductive Reply where
  | nothing
  | offset (n : Nat)
  | popped (e : Option Element)
  | closed (ps : List Placed)
  deriving DecidableEq, Repr

def Tracker.perform : Operation → Tracker → Reply × Tracker
  | .insert e, t => (.offset t.dataSize, t.insert e)
  | .push e, t => (.nothing, t.push e)
  | .pop, t => (.popped t.pop.1, t.pop.2)
  | .openScope, t => (.nothing, t.openScope)
  | .closeScope, t => (.closed t.closeScope.1, t.closeScope.2)
  | .addUdt u, t => (.nothing, t.addUdt u)
  | .clear, _ => (.nothing, .empty)

def Levels.perform : Operation → Levels → Reply × Levels
  | .insert e, m => (.offset m.dataSize, { m with dataSegment := m.dataSegment ++ [e] })
  | .push e, m => (.nothing, m.onInnermost (·.push e))
  | .pop, m => (.popped m.pop.1, m.pop.2)
  | .openScope, m => (.nothing, { m with opened := .empty :: m.opened })
  | .closeScope, m => (.closed m.closeScope.1, m.closeScope.2)
  | .addUdt u, m => (.nothing, m.onInnermost (·.addUdt u))
  | .clear, _ => (.nothing, .empty)

/-- All replies and the last state of a machine that performs some operations in turn. -/
def performAll {σ : Type} (perform : Operation → σ → Reply × σ) :
    List Operation → σ → List Reply × σ
  | [], s => ([], s)
  | op :: ops, s =>
    let (reply, s) := perform op s
    let (replies, s) := performAll perform ops s
    (reply :: replies, s)

/-! ### Flattening -/

namespace Levels

/-- The elements of some levels, newest first. -/
def stackOf (ls : List Level) : List Element := ls.flatMap (·.elements.reverse)

/-- The types of some levels, newest first. -/
def udtsOf (ls : List Level) : List Udt := ls.flatMap (·.udts.reverse)

/-- Storage as it keeps these levels: flat lists, and the number of entries of every open level. -/
def flat (m : Levels) : Tracker where
  dataSegment := m.dataSegment
  stack := stackOf m.all
  scopes := m.opened.map Level.count
  udts := udtsOf m.all

@[simp] theorem stackOf_nil : stackOf [] = [] := rfl

@[simp] theorem udtsOf_nil : udtsOf [] = [] := rfl

@[simp] theorem stackOf_cons (l : Level) (ls : List Level) :
    stackOf (l :: ls) = l.elements.reverse ++ stackOf ls := rfl

@[simp] theorem udtsOf_cons (l : Level) (ls : List Level) :
    udtsOf (l :: ls) = l.udts.reverse ++ udtsOf ls := rfl

@[simp] theorem stackOf_append (ls ls' : List Level) :
    stackOf (ls ++ ls') = stackOf ls ++ stackOf ls' := List.flatMap_append

@[simp] theorem udtsOf_append (ls ls' : List Level) :
    udtsOf (ls ++ ls') = udtsOf ls ++ udtsOf ls' := List.flatMap_append

@[simp] theorem flat_empty : empty.flat = .empty := rfl

/-! ### Steps commute with flattening -/

theorem flat_push (e : Element) (m : Levels) :
    (m.onInnermost (·.push e)).flat = m.flat.push e := by
  obtain ⟨data, base, _ | ⟨l, outer⟩⟩ := m
  · simp [onInnermost, flat, all, Tracker.push, Tracker.onScope, Level.push]
  · simp [onInnermost, flat, all, Tracker.push, Tracker.onScope, Level.push, Level.count]

theorem flat_addUdt (u : Udt) (m : Levels) :
    (m.onInnermost (·.addUdt u)).flat = m.flat.addUdt u := by
  obtain ⟨data, base, _ | ⟨l, outer⟩⟩ := m
  · simp [onInnermost, flat, all, Tracker.addUdt, Tracker.onScope, Level.addUdt]
  · simp [onInnermost, flat, all, Tracker.addUdt, Tracker.onScope, Level.addUdt, Level.count]

theorem flat_openScope (m : Levels) :
    flat { m with opened := .empty :: m.opened } = m.flat.openScope := by
  simp [flat, all, Tracker.openScope, Level.empty, Level.count]

/-- A scope's counters say which part of the flat lists is its own. -/
theorem flat_closeScope (m : Levels) :
    m.flat.closeScope = (m.closeScope.1, m.closeScope.2.flat) := by
  obtain ⟨data, base, _ | ⟨l, outer⟩⟩ := m
  · rfl
  · have htake : (stackOf (l :: (outer ++ [base]))).take l.elements.length =
        l.elements.reverse := by
      rw [stackOf_cons, List.take_left' (List.length_reverse)]
    have hdrop : (stackOf (l :: (outer ++ [base]))).drop l.elements.length =
        stackOf (outer ++ [base]) := by
      rw [stackOf_cons, List.drop_left' (List.length_reverse)]
    have hudts : (udtsOf (l :: (outer ++ [base]))).drop l.udts.length =
        udtsOf (outer ++ [base]) := by
      rw [udtsOf_cons, List.drop_left' (List.length_reverse)]
    simp only [flat, all, Tracker.closeScope, closeScope, List.map_cons, Level.count,
      List.cons_append, htake, hdrop, hudts]

/-- Where no open level has an element, no counter changes and nothing of the open levels is on the
stack. -/
theorem popOpened_eq_none {ls : List Level} (h : popOpened ls = none) :
    stackOf ls = [] ∧ Tracker.release (ls.map Level.count) = ls.map Level.count := by
  induction ls with
  | nil => exact ⟨rfl, rfl⟩
  | cons l outer ih =>
    unfold popOpened at h
    split at h
    · cases h
    · next hlast =>
      have hnil : l.elements = [] := List.getLast?_eq_none_iff.mp hlast
      obtain ⟨hstack, hrelease⟩ := ih (by simpa using h)
      simp [hnil, hstack, hrelease, Tracker.release, Level.count]

/-- The element that leaves is the top of the stack, and the counter that changes is the one of its
level. -/
theorem popOpened_eq_some {ls ls' : List Level} {e : Element} (h : popOpened ls = some (e, ls')) :
    stackOf ls = e :: stackOf ls' ∧ udtsOf ls = udtsOf ls' ∧
      Tracker.release (ls.map Level.count) = ls'.map Level.count := by
  induction ls generalizing ls' with
  | nil => cases h
  | cons l outer ih =>
    unfold popOpened at h
    split at h
    · next e' hlast =>
      cases h
      obtain ⟨front, hfront⟩ := List.getLast?_eq_some_iff.mp hlast
      simp [hfront, Level.dropNewest, Tracker.release, Level.count]
    · next hlast =>
      have hnil : l.elements = [] := List.getLast?_eq_none_iff.mp hlast
      obtain ⟨⟨e', outer'⟩, hpop, heq⟩ := Option.map_eq_some_iff.mp h
      cases heq
      obtain ⟨hstack, hudts, hrelease⟩ := ih hpop
      simp [hnil, hstack, hudts, hrelease, Tracker.release, Level.count]

theorem flat_pop (m : Levels) : m.flat.pop = (m.pop.1, m.pop.2.flat) := by
  cases hpop : popOpened m.opened with
  | some r =>
    obtain ⟨e, opened⟩ := r
    obtain ⟨hstack, hudts, hrelease⟩ := popOpened_eq_some hpop
    simp [flat, all, Tracker.pop, pop, hpop, hstack, hudts, hrelease]
  | none =>
    obtain ⟨hstack, hrelease⟩ := popOpened_eq_none hpop
    cases hlast : m.base.elements.getLast? with
    | none =>
      have hnil : m.base.elements = [] := List.getLast?_eq_none_iff.mp hlast
      simp [flat, all, Tracker.pop, pop, hpop, hstack, hnil, Level.dropNewest]
    | some e =>
      obtain ⟨front, hfront⟩ := List.getLast?_eq_some_iff.mp hlast
      simp [flat, all, Tracker.pop, pop, hpop, hstack, hrelease, hfront, Level.dropNewest]

/-- One operation on storage is the same operation on the levels. -/
theorem perform_flat (op : Operation) (m : Levels) :
    Tracker.perform op m.flat = ((perform op m).1, (perform op m).2.flat) := by
  cases op with
  | insert e => simp only [Tracker.perform, perform, Tracker.dataSize, totalSize_eq]; rfl
  | push e => simp only [Tracker.perform, perform, flat_push]
  | pop => simp only [Tracker.perform, perform, flat_pop]
  | openScope => simp only [Tracker.perform, perform, flat_openScope]
  | closeScope => simp only [Tracker.perform, perform, flat_closeScope]
  | addUdt u => simp only [Tracker.perform, perform, flat_addUdt]
  | clear => rfl

/-- Any sequence of operations on storage is the same sequence on the levels. -/
theorem performAll_flat (ops : List Operation) (m : Levels) :
    performAll Tracker.perform ops m.flat =
      ((performAll perform ops m).1, (performAll perform ops m).2.flat) := by
  induction ops generalizing m with
  | nil => rfl
  | cons op ops ih => simp only [performAll, perform_flat, ih]

/-! ### Answers agree -/

/-- The search through levels is the search through the flat stack. -/
theorem searchFrom_eq (id : String) {o : Nat} (ho : o ≤ wordLimit) (ls : List Level) :
    searchFrom id o ls = Tracker.firstNamed? id (place o (stackOf ls)) := by
  induction ls generalizing o with
  | nil => rfl
  | cons l outer ih =>
    have hcapped : addCapped o (bytesOf l.elements) ≤ wordLimit := Nat.min_le_right _ _
    rw [searchFrom, ih hcapped, stackOf_cons, place_append_capped ho, bytesOf_reverse,
      Tracker.firstNamed?, Tracker.firstNamed?, Tracker.firstNamed?, List.find?_append]

theorem find?_flat (m : Levels) (id : String) : m.flat.find? id = m.find? id := by
  rw [find?, searchFrom_eq id (Nat.zero_le _), Tracker.find?]
  rw [show m.flat.stack = stackOf m.all from rfl]
  cases Tracker.firstNamed? id (place 0 (stackOf m.all)) <;> rfl

/-- The part of the stack that the innermost scope counts as its own. -/
theorem take_stack_flat (m : Levels) :
    m.flat.stack.take ((m.flat.scopes.head?.map (·.elements)).getD m.flat.stack.length) =
      m.innermost.elements.reverse := by
  obtain ⟨data, base, _ | ⟨l, outer⟩⟩ := m
  · simp [flat, all, innermost, List.take_of_length_le]
  · simp [flat, all, innermost, Level.count]

theorem take_udts_flat (m : Levels) :
    m.flat.udts.take ((m.flat.scopes.head?.map (·.udts)).getD m.flat.udts.length) =
      m.innermost.udts.reverse := by
  obtain ⟨data, base, _ | ⟨l, outer⟩⟩ := m
  · simp [flat, all, innermost, List.take_of_length_le]
  · simp [flat, all, innermost, Level.count]

theorem findCurrent?_flat (m : Levels) (id : String) :
    m.flat.findCurrent? id = m.findCurrent? id := by
  rw [findCurrent?, searchFrom_eq id (Nat.zero_le _), Tracker.findCurrent?, take_stack_flat,
    stackOf_cons, stackOf_nil, List.append_nil]

theorem findUdt?_flat (m : Levels) (id : String) : m.flat.findUdt? id = m.findUdt? id := by
  rw [findUdt?, Tracker.findUdt?, flat, udtsOf, List.find?_flatMap]
  rfl

theorem findUdtCurrent?_flat (m : Levels) (id : String) :
    m.flat.findUdtCurrent? id = m.findUdtCurrent? id := by
  rw [findUdtCurrent?, findUdtIn?, Tracker.findUdtCurrent?, take_udts_flat]

theorem udts_flat (m : Levels) : m.flat.udts.reverse = m.udts := by
  simp [flat, udtsOf, udts, List.reverse_flatMap, Function.comp_def]

theorem length_stackOf (ls : List Level) :
    (stackOf ls).length = (ls.map (·.elements.length)).sum := by
  simp [stackOf, List.length_flatMap]

theorem length_udtsOf (ls : List Level) :
    (udtsOf ls).length = (ls.map (·.udts.length)).sum := by
  simp [udtsOf, List.length_flatMap]

theorem bytesOf_stackOf (ls : List Level) :
    bytesOf (stackOf ls) = (ls.map fun l => bytesOf l.elements).sum := by
  induction ls with
  | nil => rfl
  | cons l outer ih => rw [stackOf_cons, bytesOf_append, bytesOf_reverse, ih, List.map_cons,
      List.sum_cons]

theorem stackSize_flat (m : Levels) : m.flat.stackSize = m.stackSize := by
  rw [stackSize, ← bytesOf_stackOf, Tracker.stackSize, totalSize_eq]
  rfl

end Levels

/-- Storage answers every question as the levels do, and no counter of a scope exceeds what is
there. -/
structure Tracker.Mirrors (t : Tracker) (m : Levels) : Prop where
  find : ∀ id, t.find? id = m.find? id
  findCurrent : ∀ id, t.findCurrent? id = m.findCurrent? id
  findUdt : ∀ id, t.findUdt? id = m.findUdt? id
  findUdtCurrent : ∀ id, t.findUdtCurrent? id = m.findUdtCurrent? id
  findField : ∀ id field, t.findField? id field = (m.findUdt? id).bind (·.field? field)
  findFieldCurrent : ∀ id field,
    t.findFieldCurrent? id field = (m.findUdtCurrent? id).bind (·.field? field)
  stackLength : t.stack.length = m.stackLength
  stackSize : t.stackSize = m.stackSize
  depth : t.depth = m.opened.length
  udts : t.udts.reverse = m.udts
  globals : t.globals = place 0 m.dataSegment
  dataSize : t.dataSize = m.dataSize
  counts : t.scopes = m.opened.map Level.count
  elements_le : (t.scopes.map (·.elements)).sum ≤ t.stack.length
  udts_le : (t.scopes.map (·.udts)).sum ≤ t.udts.length

theorem Levels.mirrors_flat (m : Levels) : m.flat.Mirrors m where
  find := m.find?_flat
  findCurrent := m.findCurrent?_flat
  findUdt := m.findUdt?_flat
  findUdtCurrent := m.findUdtCurrent?_flat
  findField := fun id field => by rw [Tracker.findField?, findUdt?_flat]
  findFieldCurrent := fun id field => by rw [Tracker.findFieldCurrent?, findUdtCurrent?_flat]
  stackLength := length_stackOf m.all
  stackSize := m.stackSize_flat
  depth := List.length_map _
  udts := m.udts_flat
  globals := rfl
  dataSize := totalSize_eq m.dataSegment
  counts := rfl
  elements_le := by
    simp [flat, all, length_stackOf, Level.count, Function.comp_def]
  udts_le := by
    simp [flat, all, length_udtsOf, Level.count, Function.comp_def]

/-- Storage refines the stack of levels: after any operations on empty storage every reply was the
one of the levels, and every answer is. -/
theorem storage_refines_levels (ops : List Operation) :
    (performAll Tracker.perform ops .empty).1 = (performAll Levels.perform ops .empty).1 ∧
      (performAll Tracker.perform ops .empty).2.Mirrors
        (performAll Levels.perform ops .empty).2 := by
  have hrun := Levels.performAll_flat ops .empty
  rw [Levels.flat_empty] at hrun
  rw [hrun]
  exact ⟨rfl, Levels.mirrors_flat _⟩

-- The element popped in an empty scope is the enclosing scope's, which then has nothing to close.
example :
    (performAll Tracker.perform
      [.openScope, .push (.named "a" "u8" 1 0), .openScope, .pop, .push (.named "b" "u16" 2 0),
        .closeScope, .closeScope] .empty).1 =
      [.nothing, .nothing, .nothing, .popped (some (.named "a" "u8" 1 0)), .nothing,
        .closed [⟨.named "b" "u16" 2 0, 0⟩], .closed []] := by
  decide

end StoragePlan
