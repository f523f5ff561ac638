import Mathlib.Algebra.Order.BigOperators.Group.List
import Mathlib.Algebra.Order.Group.Nat
import Mathlib.Data.Fintype.Card
import Mathlib.Data.Fintype.EquivFin
import Mathlib.Logic.Relation
import StoragePlan.Proofs.Bytes
import StoragePlan.Proofs.Sizes

/-!
The storage size of a type is its packed size, or there is a reason why it has none. The types that a
type is built from form a graph whose edges are element types and fields, with names for nodes; the
packed size is defined by the shape of that graph alone. `Measures` is the search for a size without a
bound, so a run of it exists only if it is finite; `size` follows such a run, and what a run ends with
is explained by the graph.

Main statements: `packed_of_formed` (which types have a packed size), `measures_size` (the search
ends), `Measures.explained` (what it ends with), and from these `size_is_packed`.
-/

namespace StoragePlan

open Relation

namespace ValueType

/-! ### The graph of types -/

/-- The second type is the element type of the first, or the type of one of its fields. -/
inductive Part (m : Tracker) : ValueType → ValueType → Prop
  | element {e : ValueType} {dims : List Nat} : Part m (array e dims) e
  | field {id : String} {u : Udt} {f : Member} :
    m.findUdt? id = some u → f ∈ u.fields → Part m (udt id) (ofId f.typeId)

/-- A type is built from another, at whatever remove; every type is built from itself. -/
abbrev Reaches (m : Tracker) : ValueType → ValueType → Prop := ReflTransGen (Part m)

/-- A type is inside of another. -/
abbrev Contains (m : Tracker) : ValueType → ValueType → Prop := TransGen (Part m)

/-- The types that a type is built from are active and known, and none is inside of itself. -/
structure Formed (m : Tracker) (t : ValueType) : Prop where
  active : ∀ id, Reaches m t (udt id) → m.Active id
  defined : ¬ Reaches m t undefined
  finite : ∀ id, Reaches m t (udt id) → ¬ Contains m (udt id) (udt id)

/-- No array that a type is built from has a dimension of zero. -/
def Dimensioned (m : Tracker) (t : ValueType) : Prop :=
  ∀ e dims, Reaches m t (array e dims) → ∀ d ∈ dims, 1 ≤ d

/-- The type of a field stands among those of its type. -/
theorem part_of_append {m : Tracker} {id : String} {u : Udt} {f : Member} {done rest : List Member}
    (hu : m.findUdt? id = some u) (heq : u.fields = done ++ f :: rest) :
    Part m (udt id) (ofId f.typeId) := by
  apply Part.field hu
  rw [heq]
  exact List.mem_append_right _ List.mem_cons_self

theorem Formed.part {m : Tracker} {t c : ValueType} (h : Formed m t) (hp : Part m t c) :
    Formed m c where
  active id hid := h.active id (.head hp hid)
  defined hc := h.defined (.head hp hc)
  finite id hid := h.finite id (.head hp hid)

theorem Dimensioned.reaches {m : Tracker} {t c : ValueType} (h : Dimensioned m t)
    (hr : Reaches m t c) : Dimensioned m c :=
  fun e dims hc => h e dims (hr.trans hc)

/-- Whether all dimensions in a type are at least one. -/
def positive : ValueType → Bool
  | array e dims => dims.all (1 ≤ ·) && e.positive
  | _ => true

/-- It is enough to look at the dimensions in a type and in the fields of the active types. -/
theorem dimensioned_of_positive {m : Tracker} {t : ValueType} (ht : t.positive = true)
    (hm : ∀ u ∈ m.udts, ∀ f ∈ u.fields, (ofId f.typeId).positive = true) : Dimensioned m t := by
  have hreach : ∀ c, Reaches m t c → c.positive = true := by
    intro c hc
    induction hc with
    | refl => exact ht
    | tail _ hp ih =>
      cases hp with
      | element => exact (Bool.and_eq_true_iff.mp ih).2
      | field hu hf => exact hm _ (List.mem_of_find?_eq_some hu) _ hf
  intro e dims hr d hd
  have hdims := (Bool.and_eq_true_iff.mp (hreach _ hr)).1
  exact of_decide_eq_true (List.all_eq_true.mp hdims d hd)

/-! ### Packed sizes -/

/-- The packed size of a type in bytes, without a limit. -/
inductive Packed (m : Tracker) : ValueType → Nat → Prop
  | prim (p : Primitive) : Packed m (prim p) p.size
  | array {e : ValueType} {n : Nat} (dims : List Nat) :
    Packed m e n → Packed m (array e dims) (n * dims.prod)
  | udt {id : String} {u : Udt} {size : Member → Nat} :
    m.findUdt? id = some u → (∀ f ∈ u.fields, Packed m (ofId f.typeId) (size f)) →
    Packed m (udt id) (u.fields.map size).sum

/-- The packed size of some fields together. -/
def PackedFields (m : Tracker) (fields : List Member) (n : Nat) : Prop :=
  ∃ size : Member → Nat, (∀ f ∈ fields, Packed m (ofId f.typeId) (size f)) ∧
    n = (fields.map size).sum

section Packed

variable {m : Tracker} {t c : ValueType} {n k : Nat}

theorem Packed.unique (h : Packed m t n) (h' : Packed m t k) : n = k := by
  induction h generalizing k with
  | prim p =>
    cases h'
    rfl
  | array dims _ ih =>
    cases h' with
    | array _ he => rw [ih he]
  | @udt id u size hu _ ih =>
    cases h' with
    | @udt _ u' size' hu' hf' =>
      obtain rfl : u = u' := Option.some.inj (hu.symm.trans hu')
      have hsizes : u.fields.map size = u.fields.map size' := by
        apply List.map_congr_left
        intro f hf
        exact ih f hf (hf' f hf)
      rw [hsizes]

theorem packedFields_nil : PackedFields m [] 0 := ⟨fun _ => 0, by simp, rfl⟩

/-- One more field adds its size. -/
theorem PackedFields.concat {fields : List Member} {f : Member} (h : PackedFields m fields n)
    (hf : Packed m (ofId f.typeId) k) : PackedFields m (fields ++ [f]) (n + k) := by
  obtain ⟨size, hsize, rfl⟩ := h
  -- Where the field occurs before, its size is the same.
  have hsame : fields.map (fun g => if g = f then k else size g) = fields.map size := by
    apply List.map_congr_left
    intro g hg
    split
    · next heq => exact hf.unique (heq ▸ hsize g hg)
    · rfl
  refine ⟨fun g => if g = f then k else size g, ?_, ?_⟩
  · intro g hg
    dsimp only
    split
    · next heq => exact heq ▸ hf
    · next hne =>
      rcases List.mem_append.mp hg with hg | hg
      · exact hsize g hg
      · exact absurd (List.mem_singleton.mp hg) hne
  · simp [hsame]

theorem Packed.fields {id : String} {u : Udt} (h : Packed m (.udt id) n)
    (hu : m.findUdt? id = some u) : PackedFields m u.fields n := by
  cases h with
  | @udt _ u' size hu' hf =>
    obtain rfl : u' = u := Option.some.inj (hu'.symm.trans hu)
    exact ⟨size, hf, rfl⟩

theorem PackedFields.packed {id : String} {u : Udt} (h : PackedFields m u.fields n)
    (hu : m.findUdt? id = some u) : Packed m (.udt id) n := by
  obtain ⟨size, hf, rfl⟩ := h
  exact .udt hu hf

/-- A leading part of some fields is not larger than all of them. -/
theorem PackedFields.take_le {fields : List Member} (h : PackedFields m fields n) {i : Nat}
    (hi : PackedFields m (fields.take i) k) : k ≤ n := by
  obtain ⟨size, hsize, rfl⟩ := h
  obtain ⟨size', hsize', rfl⟩ := hi
  have hsame : (fields.take i).map size' = (fields.take i).map size := by
    apply List.map_congr_left
    intro f hf
    exact (hsize' f hf).unique (hsize f (List.mem_of_mem_take hf))
  calc ((fields.take i).map size').sum
    _ = ((fields.take i).map size).sum := by rw [hsame]
    _ ≤ ((fields.take i).map size).sum + ((fields.drop i).map size).sum := Nat.le_add_right _ _
    _ = (fields.map size).sum := by
      rw [← List.sum_append, ← List.map_append, List.take_append_drop]

/-- The parts of a type with a packed size have one. -/
theorem Packed.part (h : Packed m t n) (hp : Part m t c) : ∃ k, Packed m c k := by
  cases hp with
  | element =>
    cases h with
    | array _ he => exact ⟨_, he⟩
  | field hu hf =>
    obtain ⟨size, hsize, -⟩ := h.fields hu
    exact ⟨_, hsize _ hf⟩

theorem Packed.reaches (h : Packed m t n) (hr : Reaches m t c) : ∃ k, Packed m c k := by
  induction hr with
  | refl => exact ⟨n, h⟩
  | tail _ hp ih =>
    obtain ⟨k, hk⟩ := ih
    exact hk.part hp

/-- A type with a packed size is not inside of itself. -/
theorem Packed.acyclic (h : Packed m t n) : ¬ Contains m t t := by
  -- A circle through the type is a circle through one of its parts.
  have hturn : ∀ {t : ValueType}, (∀ c, Part m t c → ¬ Contains m c c) → ¬ Contains m t t := by
    intro t hparts hc
    obtain ⟨c, hp, hback⟩ := TransGen.head'_iff.mp hc
    exact hparts c hp (TransGen.tail' hback hp)
  induction h with
  | prim p =>
    apply hturn
    intro c hp
    cases hp
  | array dims _ ih =>
    apply hturn
    intro c hp
    cases hp
    exact ih
  | udt hu hf ih =>
    apply hturn
    intro c hp
    cases hp with
    | field hu' hmem =>
      cases hu.symm.trans hu'
      exact ih _ hmem

theorem Packed.formed (h : Packed m t n) : Formed m t where
  active id hid := by
    obtain ⟨k, hk⟩ := h.reaches hid
    cases hk with
    | udt hu _ => simp [Tracker.Active, hu]
  defined hu := by
    obtain ⟨k, hk⟩ := h.reaches hu
    cases hk
  finite id hid := by
    obtain ⟨k, hk⟩ := h.reaches hid
    exact hk.acyclic

/-- A part is not larger than the whole, unless a dimension is zero. -/
theorem Packed.part_le (h : Packed m t n) (hd : Dimensioned m t) (hp : Part m t c)
    (hk : Packed m c k) : k ≤ n := by
  cases hp with
  | @element _ dims =>
    cases h with
    | array _ he =>
      rw [hk.unique he]
      apply Nat.le_mul_of_pos_right
      exact List.prod_pos_iff_forall_pos_nat.mpr (hd _ dims .refl)
  | @field id u f hu hf =>
    obtain ⟨size, hsize, rfl⟩ := h.fields hu
    rw [hk.unique (hsize f hf)]
    exact List.le_sum_of_mem (List.mem_map_of_mem hf)

theorem Packed.reaches_le (h : Packed m t n) (hd : Dimensioned m t) (hr : Reaches m t c)
    (hk : Packed m c k) : k ≤ n := by
  induction hr generalizing k with
  | refl => exact (hk.unique h).le
  | tail hr hp ih =>
    obtain ⟨l, hl⟩ := h.reaches hr
    exact (hl.part_le (hd.reaches hr) hp hk).trans (ih hl)

end Packed

/-! ### Which types have a packed size -/

/-- The names that a formed type is built from, each of which is active, so they are finitely many. -/
def Names (m : Tracker) (t : ValueType) : Type := { id : String // Reaches m t (udt id) }

theorem Formed.finite_names {m : Tracker} {t : ValueType} (h : Formed m t) : Finite (Names m t) := by
  refine Finite.of_injective
    (fun x : Names m t => (⟨x.1, Tracker.active_iff.mp (h.active x.1 x.2)⟩ :
      { id : String // id ∈ m.udts.map (·.id) })) ?_
  intro x y hxy
  exact Subtype.ext (congrArg (fun z => z.1) hxy)

/-- A type has a packed size if the user defined types right below it have. -/
theorem packed_of_base {m : Tracker} {t : ValueType} (h : Formed m t)
    (hudt : ∀ id, Reaches m t (udt id) → ∃ n, Packed m (udt id) n) : ∃ n, Packed m t n := by
  induction t with
  | prim p => exact ⟨_, .prim p⟩
  | udt id => exact hudt id .refl
  | undefined => exact absurd .refl h.defined
  | array e dims ih =>
    obtain ⟨n, hn⟩ := ih (h.part .element) fun id hid => hudt id (.head .element hid)
    exact ⟨_, .array dims hn⟩

/-- A type has a packed size if all that it is built from is active and known and nothing is inside of
itself. -/
theorem packed_of_formed {m : Tracker} {t : ValueType} (h : Formed m t) : ∃ n, Packed m t n := by
  -- Being inside of each other is a well-founded order on the names, since these are finitely many.
  let inside : Names m t → Names m t → Prop := fun x y => Contains m (udt y.1) (udt x.1)
  have : Finite (Names m t) := h.finite_names
  have : IsTrans (Names m t) inside := ⟨fun _ _ _ hxy hyz => TransGen.trans hyz hxy⟩
  have : Std.Irrefl inside := ⟨fun x => h.finite x.1 x.2⟩
  have hnames : ∀ x : Names m t, ∃ n, Packed m (udt x.1) n := by
    intro x
    induction x using (Finite.wellFounded_of_trans_of_irrefl inside).induction with
    | _ x ih =>
    obtain ⟨u, hu⟩ := Option.isSome_iff_exists.mp (h.active x.1 x.2)
    have hfields : ∀ f ∈ u.fields, ∃ n, Packed m (ofId f.typeId) n := by
      intro f hf
      have hpart : Part m (udt x.1) (ofId f.typeId) := .field hu hf
      have hformed : Formed m (ofId f.typeId) :=
        ⟨fun id hid => h.active id (x.2.trans (.head hpart hid)),
          fun hid => h.defined (x.2.trans (.head hpart hid)),
          fun id hid => h.finite id (x.2.trans (.head hpart hid))⟩
      apply packed_of_base hformed
      intro id hid
      exact ih ⟨id, x.2.trans (.head hpart hid)⟩ (TransGen.head' hpart hid)
    choose! size hsize using hfields
    exact ⟨_, .udt hu hsize⟩
  exact packed_of_base h fun id hid => hnames ⟨id, hid⟩

/-! ### The search for a size -/

/-- What the search is asked for: the size of a type, or the sum of `sum` and of some fields of `id`. -/
inductive Task where
  | type (t : ValueType)
  | fields (id : String) (sum : Nat) (fields : List Member)

/-- The search inside of the types `visiting`, without a bound. -/
inductive Measures (m : Tracker) : List String → Task → Except SizeError Nat → Prop
  | prim {visiting : List String} (p : Primitive) : Measures m visiting (.type (prim p)) (.ok p.size)
  | undefined {visiting : List String} :
    Measures m visiting (.type undefined) (.error .undefined)
  | noElement {visiting : List String} {e : ValueType} {dims : List Nat} {x : SizeError} :
    Measures m visiting (.type e) (.error x) → Measures m visiting (.type (array e dims)) (.error x)
  | array {visiting : List String} {e : ValueType} {dims : List Nat} {size n : Nat} :
    Measures m visiting (.type e) (.ok size) → scale? size dims = some n → n ≤ maxStorage →
    Measures m visiting (.type (array e dims)) (.ok n)
  | largeArray {visiting : List String} {e : ValueType} {dims : List Nat} {size : Nat} :
    Measures m visiting (.type e) (.ok size) → (∀ n, scale? size dims = some n → maxStorage < n) →
    Measures m visiting (.type (array e dims)) (.error (.tooLarge (array e dims).typeId))
  | recursive {visiting : List String} {id : String} :
    id ∈ visiting → Measures m visiting (.type (udt id)) (.error (.recursive id))
  | unknown {visiting : List String} {id : String} :
    id ∉ visiting → m.findUdt? id = none →
    Measures m visiting (.type (udt id)) (.error (.unknownType id))
  | udt {visiting : List String} {id : String} {u : Udt} {r : Except SizeError Nat} :
    id ∉ visiting → m.findUdt? id = some u → Measures m (id :: visiting) (.fields id 0 u.fields) r →
    Measures m visiting (.type (udt id)) r
  | done {visiting : List String} {id : String} {sum : Nat} :
    Measures m visiting (.fields id sum []) (.ok sum)
  | noField {visiting : List String} {id : String} {sum : Nat} {f : Member} {fields : List Member}
      {x : SizeError} :
    Measures m visiting (.type (ofId f.typeId)) (.error x) →
    Measures m visiting (.fields id sum (f :: fields)) (.error x)
  | largeFields {visiting : List String} {id : String} {sum size : Nat} {f : Member}
      {fields : List Member} :
    Measures m visiting (.type (ofId f.typeId)) (.ok size) → maxStorage < sum + size →
    Measures m visiting (.fields id sum (f :: fields)) (.error (.tooLarge id))
  | field {visiting : List String} {id : String} {sum size : Nat} {f : Member}
      {fields : List Member} {r : Except SizeError Nat} :
    Measures m visiting (.type (ofId f.typeId)) (.ok size) → sum + size ≤ maxStorage →
    Measures m visiting (.fields id (sum + size) fields) r →
    Measures m visiting (.fields id sum (f :: fields)) r

section Search

variable {m : Tracker} {visiting : List String} {udtSize : String → Except SizeError Nat}

theorem measures_sizeWith
    (hudt : ∀ id, Measures m visiting (.type (udt id)) (udtSize id)) (t : ValueType) :
    Measures m visiting (.type t) (sizeWith udtSize t) := by
  induction t with
  | prim p => exact .prim p
  | udt id => exact hudt id
  | undefined => exact .undefined
  | array e dims ih =>
    simp only [sizeWith, bind, Except.bind]
    split
    · next x hx => exact .noElement (hx ▸ ih)
    · next size hs =>
      have he : Measures m visiting (.type e) (.ok size) := hs ▸ ih
      split
      · next n hn =>
        obtain ⟨hscale, hle⟩ := Option.filter_eq_some_iff.mp hn
        exact .array he hscale (by simpa using hle)
      · next hn =>
        apply Measures.largeArray he
        intro n hscale
        rw [hscale] at hn
        simpa using hn

theorem measures_sumFields
    (hudt : ∀ id, Measures m visiting (.type (udt id)) (udtSize id)) (id : String) (sum : Nat)
    (fields : List Member) :
    Measures m visiting (.fields id sum fields) (sumFields (sizeWith udtSize) id sum fields) := by
  induction fields generalizing sum with
  | nil => exact .done
  | cons f fields ih =>
    have hf := measures_sizeWith hudt (ofId f.typeId)
    simp only [sumFields, bind, Except.bind]
    split
    · next x hx => exact .noField (hx ▸ hf)
    · next size hs =>
      split
      · next hle => exact .field (hs ▸ hf) hle (ih (sum + size))
      · next hlt => exact .largeFields (hs ▸ hf) (by omega)

/-- The types being visited differ and are active, so the bound is not met. -/
theorem measures_udtSize {n : Nat} (hn : visiting.Nodup) (hv : ∀ v ∈ visiting, m.Active v)
    (hl : m.udts.length < n + visiting.length) (id : String) :
    Measures m visiting (.type (udt id)) (ValueType.udtSize m n visiting id) := by
  induction n generalizing visiting id with
  | zero =>
    have hsub : visiting ⊆ m.udts.map (·.id) := fun v hm => Tracker.active_iff.mp (hv v hm)
    have hle := List.Nodup.length_le_of_subset hn hsub
    rw [List.length_map] at hle
    omega
  | succ n ih =>
    unfold ValueType.udtSize
    split
    · next hc => exact .recursive (by simpa using hc)
    · next hc =>
      have hnew : id ∉ visiting := by simpa using hc
      split
      · next hnone => exact .unknown hnew hnone
      · next u hu =>
        apply Measures.udt hnew hu
        apply measures_sumFields
        apply ih (List.nodup_cons.mpr ⟨hnew, hn⟩)
        · have hid : m.Active id := by simp [Tracker.Active, hu]
          exact List.forall_mem_cons.mpr ⟨hid, hv⟩
        · rw [List.length_cons]
          omega

/-- The search for a size ends, with the size that is answered. -/
theorem measures_size (m : Tracker) (t : ValueType) : Measures m [] (.type t) (t.size m) := by
  apply measures_sizeWith
  intro id
  exact measures_udtSize List.nodup_nil (by simp) (by simp) id

end Search

/-! ### What the search ends with -/

/-- Something that a type is built from, an array or the first fields of a user defined type, has a
packed size above the limit; `id` names it. -/
inductive Oversized (m : Tracker) (t : ValueType) : String → Prop
  | array {e : ValueType} {dims : List Nat} {n : Nat} :
    Reaches m t (array e dims) → Packed m (array e dims) n → maxStorage < n →
    Oversized m t (array e dims).typeId
  | fields {id : String} {u : Udt} {i n : Nat} :
    Reaches m t (udt id) → m.findUdt? id = some u → PackedFields m (u.fields.take i) n →
    maxStorage < n → Oversized m t id

/-- The reason for what the search ends with. -/
def Verdict (m : Tracker) (t : ValueType) : Except SizeError Nat → Prop
  | .ok n => Packed m t n ∧ n ≤ maxStorage
  | .error (.recursive id) => Reaches m t (udt id) ∧ Contains m (udt id) (udt id)
  | .error (.unknownType id) => Reaches m t (udt id) ∧ ¬ m.Active id
  | .error (.tooLarge id) => Oversized m t id
  | .error .undefined => Reaches m t undefined

theorem Oversized.of_reaches {m : Tracker} {t c : ValueType} {id : String} (hr : Reaches m t c)
    (h : Oversized m c id) : Oversized m t id := by
  cases h with
  | array hc hn hlt => exact .array (hr.trans hc) hn hlt
  | fields hc hu hn hlt => exact .fields (hr.trans hc) hu hn hlt

/-- What keeps a part from having a size keeps the whole from having one. -/
theorem Verdict.of_part {m : Tracker} {t c : ValueType} {x : SizeError} (hp : Part m t c)
    (h : Verdict m c (.error x)) : Verdict m t (.error x) := by
  cases x with
  | recursive id => exact ⟨.head hp h.1, h.2⟩
  | unknownType id => exact ⟨.head hp h.1, h.2⟩
  | tooLarge id => exact Oversized.of_reaches (.single hp) h
  | undefined => exact ReflTransGen.head hp h

/-- A product that passes a word on the way is above the limit, unless a dimension is zero. -/
theorem lt_of_scale? {size : Nat} {dims : List Nat} (hd : ∀ d ∈ dims, 1 ≤ d)
    (h : ∀ n, scale? size dims = some n → maxStorage < n) : maxStorage < size * dims.prod := by
  induction dims generalizing size with
  | nil =>
    rw [List.prod_nil, Nat.mul_one]
    exact h size rfl
  | cons d dims ih =>
    rw [List.forall_mem_cons] at hd
    rw [List.prod_cons, ← Nat.mul_assoc]
    by_cases hle : size * d ≤ wordLimit
    · apply ih hd.2
      intro n hn
      apply h
      rw [scale?, if_pos hle]
      exact hn
    · have hword := maxStorage_le_wordLimit
      have hpos : 0 < dims.prod := List.prod_pos_iff_forall_pos_nat.mpr hd.2
      calc maxStorage
        _ < size * d := by omega
        _ ≤ size * d * dims.prod := Nat.le_mul_of_pos_right _ hpos

/-- What a task ends with is explained by the type it belongs to. The types being visited contain that
type, and the fields that are still to be added up come after others with the sum so far. -/
def Task.Explained (m : Tracker) (visiting : List String) (r : Except SizeError Nat) : Task → Prop
  | .type t => Dimensioned m t → (∀ v ∈ visiting, Contains m (udt v) t) → Verdict m t r
  | .fields id sum rest => ∀ u done, m.findUdt? id = some u → u.fields = done ++ rest →
    PackedFields m done sum → sum ≤ maxStorage → Dimensioned m (udt id) →
    (∀ v ∈ visiting, Reaches m (udt v) (udt id)) → Verdict m (udt id) r

theorem Measures.explained {m : Tracker} {visiting : List String} {task : Task}
    {r : Except SizeError Nat} (h : Measures m visiting task r) :
    task.Explained m visiting r := by
  induction h with
  | prim p =>
    intro _ _
    exact ⟨.prim p, by cases p <;> decide⟩
  | undefined =>
    intro _ _
    exact ReflTransGen.refl
  | noElement _ ih =>
    intro hd hv
    apply Verdict.of_part .element
    exact ih (hd.reaches (.single .element)) fun v hm => (hv v hm).tail .element
  | @array _ e dims size n _ hscale hle ih =>
    intro hd hv
    have he := ih (hd.reaches (.single .element)) fun v hm => (hv v hm).tail .element
    rw [← scale?_eq_some hscale] at hle ⊢
    exact ⟨.array dims he.1, hle⟩
  | @largeArray _ e dims size _ hlarge ih =>
    intro hd hv
    have he := ih (hd.reaches (.single .element)) fun v hm => (hv v hm).tail .element
    exact Oversized.array .refl (.array dims he.1) (lt_of_scale? (hd e dims .refl) hlarge)
  | recursive hmem =>
    intro _ hv
    exact ⟨.refl, hv _ hmem⟩
  | unknown _ hnone =>
    intro _ _
    exact ⟨.refl, by simp [Tracker.Active, hnone]⟩
  | @udt _ id u _ _ hu _ ih =>
    intro hd hv
    refine ih u [] hu rfl packedFields_nil (Nat.zero_le _) hd ?_
    exact List.forall_mem_cons.mpr ⟨.refl, fun v hm => (hv v hm).to_reflTransGen⟩
  | done =>
    intro u done hu heq hdone hle _ _
    rw [List.append_nil] at heq
    exact ⟨PackedFields.packed (heq ▸ hdone) hu, hle⟩
  | noField _ ih =>
    intro u done hu heq _ _ hd hv
    have hp := part_of_append hu heq
    apply Verdict.of_part hp
    exact ih (hd.reaches (.single hp)) fun v hm => TransGen.tail' (hv v hm) hp
  | @largeFields _ id sum size f fields _ hlt ih =>
    intro u done hu heq hdone _ hd hv
    have hp := part_of_append hu heq
    have hf := ih (hd.reaches (.single hp)) fun v hm => TransGen.tail' (hv v hm) hp
    refine Oversized.fields (i := (done ++ [f]).length) .refl hu ?_ hlt
    have htake : u.fields.take (done ++ [f]).length = done ++ [f] := by
      rw [heq, List.append_cons done f fields]
      exact List.take_left
    rw [htake]
    exact hdone.concat hf.1
  | @field _ id sum size f fields r _ hle _ ihf ih =>
    intro u done hu heq hdone _ hd hv
    have hp := part_of_append hu heq
    have hf := ihf (hd.reaches (.single hp)) fun v hm => TransGen.tail' (hv v hm) hp
    exact ih u (done ++ [f]) hu (by simp [heq]) (hdone.concat hf.1) hle hd hv

/-- What the search for the size of a type ends with is explained by the graph of types. -/
theorem verdict_size {m : Tracker} {t : ValueType} (hd : Dimensioned m t) : Verdict m t (t.size m) :=
  (measures_size m t).explained hd (by simp)

/-- A type whose packed size is within the limit has that size. -/
theorem Packed.size_eq {m : Tracker} {t : ValueType} {n : Nat} (h : Packed m t n)
    (hle : n ≤ maxStorage) (hd : Dimensioned m t) : t.size m = .ok n := by
  have hverdict := verdict_size hd
  cases hr : t.size m with
  | ok k =>
    rw [hr] at hverdict
    rw [hverdict.1.unique h]
  | error x =>
    rw [hr] at hverdict
    exfalso
    cases x with
    | recursive id => exact h.formed.finite id hverdict.1 hverdict.2
    | unknownType id => exact hverdict.2 (h.formed.active id hverdict.1)
    | undefined => exact h.formed.defined hverdict
    | tooLarge id =>
      cases hverdict with
      | array hreach hk hlt =>
        have hk := h.reaches_le hd hreach hk
        omega
      | @fields id u i k hreach hu hk hlt =>
        obtain ⟨l, hl⟩ := h.reaches hreach
        have hkl := (hl.fields hu).take_le hk
        have hln := h.reaches_le hd hreach hl
        omega

end ValueType

open ValueType in
/-- The storage size of a type is its packed size, or the right failure. In every tracker and for every
type whose arrays have no dimension of zero, the search for the size ends. It ends with `n` exactly if
all names that the type is built from are active, nothing in it is undefined, no type is inside of
itself, and `n` is the packed size, which then exists and is unique, and does not exceed the limit. A
type that is called recursive is inside of itself, one that is called unknown is not active, and both
are among those that the type is built from; and where something is called too large, it is an array or
the first fields of a type among those, with a packed size above the limit. -/
theorem size_is_packed (m : Tracker) (t : ValueType)
    (hd : ∀ e dims, Reaches m t (array e dims) → ∀ d ∈ dims, 1 ≤ d) :
    Measures m [] (.type t) (t.size m) ∧
    (∀ n, t.size m = .ok n ↔ Formed m t ∧ Packed m t n ∧ n ≤ maxStorage) ∧
    (Formed m t → ∃! n, Packed m t n) ∧
    (∀ id, t.size m = .error (.recursive id) →
      Reaches m t (udt id) ∧ Contains m (udt id) (udt id)) ∧
    (∀ id, t.size m = .error (.unknownType id) → Reaches m t (udt id) ∧ ¬ m.Active id) ∧
    (∀ id, t.size m = .error (.tooLarge id) → Oversized m t id) ∧
    (t.size m = .error .undefined → Reaches m t undefined) := by
  have hverdict : Verdict m t (t.size m) := verdict_size hd
  refine ⟨measures_size m t, fun n => ⟨?_, ?_⟩, ?_, ?_, ?_, ?_, ?_⟩
  · intro h
    rw [h] at hverdict
    exact ⟨hverdict.1.formed, hverdict⟩
  · rintro ⟨-, hn, hle⟩
    exact hn.size_eq hle hd
  · intro hformed
    obtain ⟨n, hn⟩ := packed_of_formed hformed
    exact ⟨n, hn, fun k hk => hk.unique hn⟩
  · intro id h
    rwa [h] at hverdict
  · intro id h
    rwa [h] at hverdict
  · intro id h
    rwa [h] at hverdict
  · intro h
    rwa [h] at hverdict

/-- Storage in which a line has two points and three numbers, a ring and its link contain each other,
and a newer point shadows one that contains itself. -/
def nestedShapes : Tracker :=
  ⟨[], [], [], [⟨"Ring", [⟨"links", "Link[2]"⟩]⟩, ⟨"Link", [⟨"size", "u8"⟩, ⟨"ring", "Ring"⟩]⟩,
    ⟨"Line", [⟨"from", "Point"⟩, ⟨"to", "Point"⟩, ⟨"widths", "u16[3]"⟩]⟩,
    ⟨"Point", [⟨"x", "u8"⟩, ⟨"y", "s32"⟩]⟩, ⟨"Point", [⟨"next", "Point"⟩]⟩]⟩

open ValueType in
/-- A point that is used twice is not recursive; a ring is. -/
theorem size_is_packed_nestedShapes :
    (array (udt "Line") [2, 3]).size nestedShapes = .ok 96 ∧
    Packed nestedShapes (array (udt "Line") [2, 3]) 96 ∧
    Formed nestedShapes (array (udt "Line") [2, 3]) ∧
    (udt "Link").size nestedShapes = .error (.recursive "Link") ∧
    Contains nestedShapes (udt "Link") (udt "Link") := by
  have hwritten : ∀ u ∈ nestedShapes.udts, ∀ f ∈ u.fields, (ofId f.typeId).positive = true := by
    decide +kernel
  have hlines := size_is_packed nestedShapes (array (udt "Line") [2, 3])
    (dimensioned_of_positive (by decide) hwritten)
  have hlink := size_is_packed nestedShapes (udt "Link") (dimensioned_of_positive (by decide) hwritten)
  have hsize : (array (udt "Line") [2, 3]).size nestedShapes = .ok 96 := by decide +kernel
  have hfault : (udt "Link").size nestedShapes = .error (.recursive "Link") := by decide +kernel
  obtain ⟨hformed, hpacked, -⟩ := (hlines.2.1 96).mp hsize
  exact ⟨hsize, hpacked, hformed, hfault, (hlink.2.2.2.1 "Link" hfault).2⟩

end StoragePlan
