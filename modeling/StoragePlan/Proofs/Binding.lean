import StoragePlan.Proofs.Handles
import StoragePlan.Proofs.Storage
import StoragePlan.Proofs.Tables

/-!
A declaration puts one thing into the symbol table and one thing into storage. A `Binding` keeps the
two together: the symbol, and the element or the type that storage holds for it. They match if the
handles of the symbol stand for the type ids in storage; since handles keep their ids, what matches
once matches for good.
-/

namespace StoragePlan

/-- What storage holds for a declared name. -/
inductive Holding where
  | element (e : Element)
  | udt (u : Udt)
  deriving DecidableEq, Repr

/-- A symbol together with what its declaration put into storage. -/
structure Binding where
  symbol : Symbol
  holding : Holding
  deriving DecidableEq, Repr

namespace Binding

def element? (b : Binding) : Option Element :=
  match b.holding with
  | .element e => some e
  | .udt _ => none

def udt? (b : Binding) : Option Udt :=
  match b.holding with
  | .element _ => none
  | .udt u => some u

end Binding

/-! ### Matching -/

/-- The names of some arguments or fields, each with the id behind its handle. -/
def TypedName.spelled (types : TypeTable) (ns : List TypedName) : List (String × Option String) :=
  ns.map fun n => (n.id, types.typeId? n.type)

/-- The names of some parameters or fields in storage, each with its type id. -/
def Member.spelled (ms : List Member) : List (String × Option String) :=
  ms.map fun m => (m.id, some m.typeId)

/-- The element holds the value of a variable or constant. -/
def Element.Holds (types : TypeTable) (id : String) (h : Handle) (e : Element) : Prop :=
  ∃ typeId size v, e = .named id typeId size v ∧ types.typeId? h = some typeId

/-- The element stands for a function. -/
def Element.Calls (types : TypeTable) (id : String) (args : List TypedName)
    (returns : Option Handle) (e : Element) : Prop :=
  ∃ s : Signature, e = .function s ∧ s.id = id ∧
    TypedName.spelled types args = Member.spelled s.params ∧
    returns.map types.typeId? = s.returns.map some

/-- The type in storage has these fields. -/
def Udt.Shapes (types : TypeTable) (id : String) (fields : List TypedName) (u : Udt) : Prop :=
  u.id = id ∧ TypedName.spelled types fields = Member.spelled u.fields

namespace Binding

/-- The symbol and what storage holds for it say the same. -/
def Matches (types : TypeTable) (b : Binding) : Prop :=
  match b.symbol.kind, b.holding with
  | .var h, .element e => e.Holds types b.symbol.id h
  | .const h, .element e => e.Holds types b.symbol.id h
  | .function args returns, .element e => e.Calls types b.symbol.id args returns
  | .udt fields, .udt u => u.Shapes types b.symbol.id fields
  | _, _ => False

variable {t t' : TypeTable}

theorem Matches.id_element {b : Binding} (h : b.Matches t) {e : Element}
    (he : b.element? = some e) : e.id = some b.symbol.id := by
  obtain ⟨⟨id, kind, exported, position⟩, holding⟩ := b
  cases holding with
  | udt u => cases he
  | element e' =>
    cases he
    cases kind with
    | udt fields => exact h.elim
    | var k =>
      obtain ⟨typeId, size, v, he, _⟩ := h
      exact congrArg Element.id he
    | const k =>
      obtain ⟨typeId, size, v, he, _⟩ := h
      exact congrArg Element.id he
    | function args returns =>
      obtain ⟨s, he, hid, _⟩ := h
      exact (congrArg Element.id he).trans (congrArg some hid)

theorem Matches.id_udt {b : Binding} (h : b.Matches t) {u : Udt} (hu : b.udt? = some u) :
    u.id = b.symbol.id := by
  obtain ⟨⟨id, kind, exported, position⟩, holding⟩ := b
  cases holding with
  | element e => cases hu
  | udt u' =>
    cases hu
    cases kind with
    | udt fields => exact h.1
    | var k => exact h.elim
    | const k => exact h.elim
    | function args returns => exact h.elim

/-- A variable or constant has its element. -/
theorem Matches.holds {b : Binding} (h : b.Matches t) {k : Handle}
    (hk : b.symbol.valueType? = some k) :
    ∃ e, b.element? = some e ∧ e.Holds t b.symbol.id k := by
  obtain ⟨⟨id, kind, exported, position⟩, holding⟩ := b
  cases kind <;> cases holding <;> first | exact h.elim | cases hk
  · exact ⟨_, rfl, h⟩
  · exact ⟨_, rfl, h⟩

/-- A function has its element. -/
theorem Matches.calls {b : Binding} (h : b.Matches t) {args : List TypedName}
    {returns : Option Handle} (hk : b.symbol.kind = .function args returns) :
    ∃ e, b.element? = some e ∧ e.Calls t b.symbol.id args returns := by
  obtain ⟨⟨id, kind, exported, position⟩, holding⟩ := b
  cases hk
  cases holding with
  | element e => exact ⟨e, rfl, h⟩
  | udt u => exact h.elim

/-- A type has its shape. -/
theorem Matches.shapes {b : Binding} (h : b.Matches t) {fields : List TypedName}
    (hk : b.symbol.kind = .udt fields) :
    ∃ u, b.udt? = some u ∧ u.Shapes t b.symbol.id fields := by
  obtain ⟨⟨id, kind, exported, position⟩, holding⟩ := b
  cases hk
  cases holding with
  | element e => exact h.elim
  | udt u => exact ⟨u, rfl, h⟩

/-- Types are held as types, everything else as elements. -/
theorem Matches.isUdt {b : Binding} (h : b.Matches t) : b.symbol.isUdt = b.udt?.isSome := by
  obtain ⟨⟨id, kind, exported, position⟩, holding⟩ := b
  cases kind <;> cases holding <;> first | rfl | exact h.elim

theorem Matches.element?_eq_none {b : Binding} (h : b.Matches t) (hu : b.symbol.isUdt = true) :
    b.element? = none := by
  rw [h.isUdt] at hu
  unfold udt? at hu
  unfold element?
  split at hu
  · cases hu
  · rfl

end Binding

/-! ### Growth of the table of types -/

section Growth

variable {t t' : TypeTable}

theorem TypedName.spelled_mono (ho : t.Ordered) (hg : t.Grown t') {ns : List TypedName}
    {ms : List Member} (h : spelled t ns = Member.spelled ms) : spelled t' ns = Member.spelled ms := by
  induction ns generalizing ms with
  | nil => exact h
  | cons n ns ih =>
    cases ms with
    | nil => simp [spelled, Member.spelled] at h
    | cons m ms =>
      simp only [spelled, Member.spelled, List.map_cons, List.cons.injEq, Prod.mk.injEq] at h ih ⊢
      exact ⟨⟨h.1.1, TypeTable.typeId?_mono ho hg.entries h.1.2⟩, ih h.2⟩

theorem Element.Holds.mono (ho : t.Ordered) (hg : t.Grown t') {id : String} {k : Handle}
    {e : Element} (h : e.Holds t id k) : e.Holds t' id k := by
  obtain ⟨typeId, size, v, he, hk⟩ := h
  exact ⟨typeId, size, v, he, TypeTable.typeId?_mono ho hg.entries hk⟩

theorem Element.Calls.mono (ho : t.Ordered) (hg : t.Grown t') {id : String}
    {args : List TypedName} {returns : Option Handle} {e : Element}
    (h : e.Calls t id args returns) : e.Calls t' id args returns := by
  obtain ⟨s, he, hid, hargs, hret⟩ := h
  refine ⟨s, he, hid, TypedName.spelled_mono ho hg hargs, ?_⟩
  cases returns with
  | none => exact hret
  | some k =>
    cases hs : s.returns with
    | none => simp [hs] at hret
    | some typeId =>
      simp only [hs, Option.map_some, Option.some.injEq] at hret ⊢
      exact TypeTable.typeId?_mono ho hg.entries hret

theorem Binding.Matches.mono (ho : t.Ordered) (hg : t.Grown t') {b : Binding}
    (h : b.Matches t) : b.Matches t' := by
  obtain ⟨⟨id, kind, exported, position⟩, holding⟩ := b
  cases kind <;> cases holding <;> first | exact h.elim | skip
  · exact Element.Holds.mono ho hg h
  · exact Element.Holds.mono ho hg h
  · exact Element.Calls.mono ho hg h
  · exact ⟨h.1, TypedName.spelled_mono ho hg h.2⟩

end Growth

/-! ### Storage and tables that gain bindings -/

/-- Storage with what some declarations hold, newest first. -/
def Tracker.gain (inner : Bool) (bs : List Binding) (m : Tracker) : Tracker :=
  m.grow inner (bs.filterMap (·.element?)) (bs.filterMap (·.udt?))

/-- The table with the symbols of some declarations, newest first. -/
def SymbolTable.gain (bs : List Binding) (t : SymbolTable) : SymbolTable :=
  t.grow (bs.map (·.symbol))

theorem Tracker.gain_gain (inner : Bool) (bs bs' : List Binding) (m : Tracker) :
    (m.gain inner bs).gain inner bs' = m.gain inner (bs' ++ bs) := by
  simp only [gain, grow_grow, List.filterMap_append]

@[simp] theorem Tracker.gain_nil (inner : Bool) (m : Tracker) : m.gain inner [] = m :=
  grow_nil inner m

@[simp] theorem Tracker.depth_gain (inner : Bool) (bs : List Binding) (m : Tracker) :
    (m.gain inner bs).depth = m.depth := depth_grow inner _ _ m

theorem SymbolTable.gain_gain (bs bs' : List Binding) (t : SymbolTable) :
    (t.gain bs).gain bs' = t.gain (bs' ++ bs) := by
  simp only [gain, grow_grow, List.map_append]

@[simp] theorem SymbolTable.gain_nil (t : SymbolTable) : t.gain [] = t := grow_nil t

@[simp] theorem SymbolTable.file_gain (bs : List Binding) (t : SymbolTable) :
    (t.gain bs).file = t.file := file_grow _ t

@[simp] theorem SymbolTable.outer_gain (bs : List Binding) (t : SymbolTable) :
    (t.gain bs).outer = t.outer := outer_grow _ t

@[simp] theorem SymbolTable.depth_gain (bs : List Binding) (t : SymbolTable) :
    (t.gain bs).depth = t.depth := depth_grow _ t

end StoragePlan
