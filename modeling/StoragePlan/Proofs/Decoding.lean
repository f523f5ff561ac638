import StoragePlan.Proofs.Handles
import StoragePlan.Proofs.TypeIds

/-!
Handles can be read back. The table tells types apart by their ids only, and nested arrays would share
theirs with flat ones; but in a tidy table every entry stands for a type as a program can write it, and
these differ in their ids. So the handle that such a type is given stands for the same type, and goes on
doing so while the table grows.
-/

namespace StoragePlan

theorem ValueType.Simple.plain {ty : ValueType} (hs : ty.Simple) : ty.Plain := by
  cases ty with
  | prim p => trivial
  | udt id => exact hs
  | array element dims => cases hs
  | undefined => cases hs

theorem ValueType.Plain.defined {ty : ValueType} (h : ty.Plain) : ty.Defined := by
  have hsimple : ∀ {t : ValueType}, t.Simple → t.Defined := fun {t} h => by
    cases t with
    | prim p => trivial
    | udt id => trivial
    | array element dims => cases h
    | undefined => cases h
  cases ty with
  | array element dims => exact hsimple (t := element) h.1
  | prim p => trivial
  | udt id => trivial
  | undefined => cases h

namespace TypeTable

variable {t t' : TypeTable} {h : Nat}

/-! ### What a handle stands for -/

/-- The type of an entry needs one step more than the entry has others before it, and none of the
entries after it. -/
theorem valueWithin_entry (ho : t.Ordered) (hp : t.types <+: t'.types) {ty : SymbolType}
    (hg : t.get? h = some ty) {n m : Nat} (hn : h < n) (hm : h < m) :
    t'.valueWithin m h = t.valueWithin n h := by
  induction h using Nat.strongRecOn generalizing ty n m with
  | ind h ih =>
    obtain ⟨n, rfl⟩ : ∃ k, n = k + 1 := ⟨n - 1, by omega⟩
    obtain ⟨m, rfl⟩ : ∃ k, m = k + 1 := ⟨m - 1, by omega⟩
    simp only [valueWithin, hg, get?_mono hp hg]
    cases ty with
    | native p => rfl
    | function id => rfl
    | udt id => rfl
    | array base dims =>
      have hb := ho h base dims hg
      obtain ⟨ty', hty⟩ := get?_of_lt (Nat.lt_trans hb (get?_lt hg))
      dsimp only
      rw [ih base hb hty (Nat.lt_of_lt_of_le hb (Nat.le_of_lt_succ hn))
        (Nat.lt_of_lt_of_le hb (Nat.le_of_lt_succ hm))]

/-- A handle keeps its type while the table grows. -/
theorem valueType_mono (ho : t.Ordered) (hp : t.types <+: t'.types) (hl : h < t.types.length) :
    t'.valueType h = t.valueType h := by
  obtain ⟨ty, hg⟩ := get?_of_lt hl
  exact valueWithin_entry ho hp hg hl (Nat.lt_of_lt_of_le hl hp.length_le)

/-- Only an entry stands for something. -/
theorem lt_of_valueType (hd : t.valueType h ≠ .undefined) : h < t.types.length := by
  refine Nat.lt_of_not_le fun hl => hd ?_
  have hn : t.get? h = none := List.getElem?_eq_none hl
  unfold valueType
  cases t.types.length with
  | zero => rfl
  | succ n => simp [valueWithin, hn]

theorem valueType_native {p : Primitive} (hg : t.get? h = some (.native p)) :
    t.valueType h = .prim p := by
  obtain ⟨n, hn⟩ : ∃ k, t.types.length = k + 1 := ⟨t.types.length - 1, by have := get?_lt hg; omega⟩
  simp [valueType, hn, valueWithin, hg]

theorem valueType_udt {id : String} (hg : t.get? h = some (.udt id)) : t.valueType h = .udt id := by
  obtain ⟨n, hn⟩ : ∃ k, t.types.length = k + 1 := ⟨t.types.length - 1, by have := get?_lt hg; omega⟩
  simp [valueType, hn, valueWithin, hg]

theorem valueType_array (ho : t.Ordered) {base : Nat} {dims : List Nat}
    (hg : t.get? h = some (.array base dims)) :
    t.valueType h = .array (t.valueType base) dims := by
  have hl := get?_lt hg
  have hb := ho h base dims hg
  obtain ⟨ty, hty⟩ := get?_of_lt (Nat.lt_trans hb hl)
  obtain ⟨n, hn⟩ : ∃ k, t.types.length = k + 1 := ⟨t.types.length - 1, by omega⟩
  have hsame := valueWithin_entry ho (List.prefix_refl _) hty (n := t.types.length) (m := n)
    (by omega) (by omega)
  simp only [valueType, hn, valueWithin, hg] at hsame ⊢
  rw [hsame]

/-! ### Tidy tables -/

/-- Every entry stands for a type as a program can write it. -/
structure Tidy (t : TypeTable) : Prop where
  ordered : t.Ordered
  plain : ∀ h, h < t.types.length → (t.valueType h).Plain

theorem tidy_empty : Tidy empty where
  ordered h base dims hg := by cases hg
  plain h hl := absurd hl (Nat.not_lt_zero h)

/-- The id of an entry is the id of the type it stands for. -/
theorem Tidy.typeId? (ht : t.Tidy) (hl : h < t.types.length) :
    t.typeId? h = some (t.valueType h).typeId := by
  induction h using Nat.strongRecOn with
  | ind h ih =>
    obtain ⟨ty, hg⟩ := get?_of_lt hl
    have hid : t.typeId? h = some (t.idOf ty) := by rw [TypeTable.typeId?, hg, Option.map_some]
    rw [hid]
    cases ty with
    | native p =>
      rw [valueType_native hg]
      simp [idOf, idWithin, ValueType.typeId]
    | udt id =>
      rw [valueType_udt hg]
      simp [idOf, idWithin, ValueType.typeId]
    | function id =>
      have hp := ht.plain h hl
      obtain ⟨n, hn⟩ : ∃ k, t.types.length = k + 1 := ⟨t.types.length - 1, by omega⟩
      simp [valueType, hn, valueWithin, hg, ValueType.Plain, ValueType.Simple] at hp
    | array base dims =>
      have hb := ht.ordered h base dims hg
      rw [valueType_array ht.ordered hg,
        idOf_array ht.ordered (ih base hb (Nat.lt_trans hb hl)) dims]
      rfl

/-- Types that a program can write are told apart by their ids. -/
theorem Tidy.valueType_eq (ht : t.Tidy) (hl : h < t.types.length) {ty : ValueType} (hp : ty.Plain)
    (hid : t.typeId? h = some ty.typeId) : t.valueType h = ty := by
  have hsame : (t.valueType h).typeId = ty.typeId :=
    Option.some.inj ((ht.typeId? hl).symm.trans hid)
  calc t.valueType h
    _ = .ofId (t.valueType h).typeId := (ValueType.ofId_typeId (ht.plain h hl)).symm
    _ = .ofId ty.typeId := by rw [hsame]
    _ = ty := ValueType.ofId_typeId hp

/-- A table stays tidy if its new entry stands for a type that a program can write. -/
theorem Tidy.add (ht : t.Tidy) {ty : SymbolType} (hc : t.Covers ty)
    (hp : ((⟨t.types ++ [ty]⟩ : TypeTable).valueType t.types.length).Plain) : (t.add ty).2.Tidy := by
  have ho := (add_grown t ty hc).ordered ht.ordered
  simp only [TypeTable.add] at ho ⊢
  split
  · exact ht
  · refine ⟨ordered_append ht.ordered hc, fun h hl => ?_⟩
    rw [List.length_append, List.length_singleton] at hl
    by_cases hold : h < t.types.length
    · rw [valueType_mono ht.ordered (List.prefix_append _ _) hold]
      exact ht.plain h hold
    · obtain rfl : h = t.types.length := by omega
      exact hp

theorem get?_append (t : TypeTable) (ty : SymbolType) :
    (⟨t.types ++ [ty]⟩ : TypeTable).get? t.types.length = some ty := by
  simp [get?]

/-- Handles of primitives and user defined types keep a table tidy. -/
theorem Tidy.intern?_simple (ht : t.Tidy) {ty : ValueType} (hs : ty.Simple)
    (hi : t.intern? ty = some (h, t')) : t'.Tidy := by
  cases ty with
  | prim p =>
    have ha : t.add (.native p) = (h, t') := Option.some.inj hi
    have htidy : (t.add (.native p)).2.Tidy := by
      refine ht.add trivial ?_
      rw [valueType_native (get?_append t _)]
      trivial
    rwa [ha] at htidy
  | udt id =>
    have ha : t.add (.udt id) = (h, t') := Option.some.inj hi
    have htidy : (t.add (.udt id)).2.Tidy := by
      refine ht.add trivial ?_
      rw [valueType_udt (get?_append t _)]
      exact hs
    rwa [ha] at htidy
  | array element dims => cases hs
  | undefined => cases hs

/-- The handle that a type is given stands for this type, in a table that stays tidy. -/
theorem Tidy.intern? (ht : t.Tidy) {ty : ValueType} (hp : ty.Plain)
    (hi : t.intern? ty = some (h, t')) : t'.Tidy ∧ t'.valueType h = ty := by
  obtain ⟨_, hl, hid⟩ := intern?_grown hi
  have htidy : t'.Tidy := by
    cases ty with
    | prim p => exact ht.intern?_simple (show (ValueType.prim p).Simple from hp) hi
    | udt id => exact ht.intern?_simple (show (ValueType.udt id).Simple from hp) hi
    | undefined => cases hp
    | array element dims =>
      simp only [TypeTable.intern?] at hi
      split at hi
      · next base t₁ hb =>
        have ha : t₁.add (.array base dims) = (h, t') := Option.some.inj hi
        obtain ⟨_, hl₁, hid₁⟩ := intern?_grown hb
        have ht₁ := ht.intern?_simple hp.1 hb
        have hbase := ht₁.valueType_eq hl₁ hp.1.plain (hid₁ ht.ordered)
        have hadd : (t₁.add (.array base dims)).2.Tidy := by
          refine ht₁.add hl₁ ?_
          have hc : t₁.Covers (.array base dims) := hl₁
          rw [valueType_array (ordered_append ht₁.ordered hc) (get?_append t₁ _),
            valueType_mono ht₁.ordered (List.prefix_append _ _) hl₁, hbase]
          exact hp
        rwa [ha] at hadd
      · cases hi
  exact ⟨htidy, htidy.valueType_eq hl hp (hid ht.ordered)⟩

end TypeTable

end StoragePlan
