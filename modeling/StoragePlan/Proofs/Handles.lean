import StoragePlan.Names.TypeTable

/-!
Handles keep their meaning. Entries are only ever added at the end of the table of types, and an array
refers to an entry before its own; so the id behind a handle does not change while the table grows,
and the handle that a type is given has the id of that type.
-/

namespace StoragePlan

namespace TypeTable

/-- Every array refers to an entry before its own. -/
def Ordered (t : TypeTable) : Prop :=
  ∀ (h base : Nat) (dims : List Nat), t.get? h = some (.array base dims) → base < h

/-- The table `t'` has the entries of `t` and perhaps more after them. -/
structure Grown (t t' : TypeTable) : Prop where
  entries : t.types <+: t'.types
  ordered : t.Ordered → t'.Ordered

theorem Grown.refl (t : TypeTable) : t.Grown t := ⟨List.prefix_refl _, id⟩

theorem Grown.trans {t u v : TypeTable} (h : t.Grown u) (h' : u.Grown v) : t.Grown v :=
  ⟨h.entries.trans h'.entries, h'.ordered ∘ h.ordered⟩

/-- The elements of an array type are in the table. -/
def Covers (t : TypeTable) : SymbolType → Prop
  | .array base _ => base < t.types.length
  | _ => True

theorem get?_lt {t : TypeTable} {h : Nat} {ty : SymbolType} (hg : t.get? h = some ty) :
    h < t.types.length := (List.getElem?_eq_some_iff.mp hg).1

theorem get?_of_lt {t : TypeTable} {h : Nat} (hl : h < t.types.length) :
    ∃ ty, t.get? h = some ty := ⟨t.types[h], List.getElem?_eq_getElem hl⟩

theorem get?_mono {t t' : TypeTable} (hp : t.types <+: t'.types) {h : Nat} {ty : SymbolType}
    (hg : t.get? h = some ty) : t'.get? h = some ty := by
  obtain ⟨more, hm⟩ := hp
  unfold get? at hg ⊢
  rw [← hm, List.getElem?_append_left (get?_lt hg), hg]

/-- The id of an entry needs no more steps than the entry has others before it, and none of the
entries after it. -/
theorem idWithin_entry {t t' : TypeTable} (ho : t.Ordered) (hp : t.types <+: t'.types)
    {h : Nat} {ty : SymbolType} (hg : t.get? h = some ty) {n m : Nat} (hn : h ≤ n)
    (hm : h ≤ m) : t'.idWithin m ty = t.idWithin n ty := by
  induction h using Nat.strongRecOn generalizing ty n m with
  | ind h ih =>
    cases ty with
    | native p => simp [idWithin]
    | function id => simp [idWithin]
    | udt id => simp [idWithin]
    | array base dims =>
      have hb := ho h base dims hg
      obtain ⟨ty', hty⟩ := get?_of_lt (Nat.lt_trans hb (get?_lt hg))
      obtain ⟨n, rfl⟩ : ∃ k, n = k + 1 := ⟨n - 1, by omega⟩
      obtain ⟨m, rfl⟩ : ∃ k, m = k + 1 := ⟨m - 1, by omega⟩
      simp only [idWithin, hty, get?_mono hp hty]
      rw [ih base hb hty (Nat.le_of_lt_succ (Nat.lt_of_lt_of_le hb hn))
        (Nat.le_of_lt_succ (Nat.lt_of_lt_of_le hb hm))]

theorem idOf_mono {t t' : TypeTable} (ho : t.Ordered) (hp : t.types <+: t'.types)
    {ty : SymbolType} (hc : t.Covers ty) : t'.idOf ty = t.idOf ty := by
  unfold idOf
  cases ty with
  | native p => simp [idWithin]
  | function id => simp [idWithin]
  | udt id => simp [idWithin]
  | array base dims =>
    obtain ⟨ty', hty⟩ := get?_of_lt (show t.Covers (.array base dims) from hc)
    have hb := get?_lt hty
    have hl := hp.length_le
    obtain ⟨n, hn⟩ : ∃ k, t.types.length = k + 1 := ⟨t.types.length - 1, by omega⟩
    obtain ⟨m, hm⟩ : ∃ k, t'.types.length = k + 1 := ⟨t'.types.length - 1, by omega⟩
    simp only [hn, hm, idWithin, hty, get?_mono hp hty]
    rw [idWithin_entry ho hp hty (n := n) (m := m) (by omega) (by omega)]

theorem covers_entry {t : TypeTable} (ho : t.Ordered) {h : Nat} {ty : SymbolType}
    (hg : t.get? h = some ty) : t.Covers ty := by
  cases ty with
  | array base dims => exact Nat.lt_trans (ho h base dims hg) (get?_lt hg)
  | _ => trivial

/-- A handle keeps its id while the table grows. -/
theorem typeId?_mono {t t' : TypeTable} (ho : t.Ordered) (hp : t.types <+: t'.types)
    {h : Handle} {id : String} (hi : t.typeId? h = some id) : t'.typeId? h = some id := by
  obtain ⟨ty, hty, rfl⟩ := Option.map_eq_some_iff.mp hi
  simp only [typeId?, get?_mono hp hty, Option.map_some, idOf_mono ho hp (covers_entry ho hty)]

/-- An array type has the id of its elements followed by its dimensions. -/
theorem idOf_array {t : TypeTable} (ho : t.Ordered) {base : Nat} {id : String}
    (hi : t.typeId? base = some id) (dims : List Nat) :
    t.idOf (.array base dims) = id ++ dimsText dims := by
  obtain ⟨ty, hty, rfl⟩ := Option.map_eq_some_iff.mp hi
  have hl : base < t.types.length := get?_lt hty
  obtain ⟨n, hn⟩ : ∃ k, t.types.length = k + 1 := ⟨t.types.length - 1, by omega⟩
  have hs := idWithin_entry ho (List.prefix_refl _) hty (n := t.types.length) (m := n)
    (Nat.le_of_lt hl) (by omega)
  simp only [idOf, hn, idWithin, hty] at hs ⊢
  rw [hs]

/-! ### Adding a type -/

theorem ordered_append {t : TypeTable} (ho : t.Ordered) {ty : SymbolType} (hc : t.Covers ty) :
    (⟨t.types ++ [ty]⟩ : TypeTable).Ordered := by
  intro h base dims hg
  unfold get? at hg
  rcases Nat.lt_or_ge h t.types.length with hl | hl
  · rw [List.getElem?_append_left hl] at hg
    exact ho h base dims hg
  · rw [List.getElem?_append_right hl] at hg
    obtain ⟨hz, hty⟩ := List.getElem?_eq_some_iff.mp hg
    simp only [List.length_singleton, Nat.lt_one_iff] at hz
    simp only [hz, List.getElem_cons_zero] at hty
    subst hty
    exact Nat.lt_of_lt_of_le hc hl

theorem add_grown (t : TypeTable) (ty : SymbolType) (hc : t.Covers ty) :
    t.Grown (t.add ty).2 := by
  simp only [add]
  split
  · exact Grown.refl t
  · exact ⟨List.prefix_append _ _, fun ho => ordered_append ho hc⟩

theorem add_lt (t : TypeTable) (ty : SymbolType) :
    (t.add ty).1 < (t.add ty).2.types.length := by
  simp only [add]
  split
  · next h hf => exact (List.findIdx?_eq_some_iff_getElem.mp hf).1
  · simp

/-- The handle of an added type has the id of the type. -/
theorem typeId?_add {t : TypeTable} (ho : t.Ordered) (ty : SymbolType) (hc : t.Covers ty) :
    (t.add ty).2.typeId? (t.add ty).1 = some (t.idOf ty) := by
  simp only [add]
  split
  · next h hf =>
    obtain ⟨hl, hs⟩ := List.findIdx?_eq_some_iff_getElem.mp hf
    simp only [Bool.and_eq_true, beq_iff_eq] at hs
    simp only [typeId?, get?, List.getElem?_eq_getElem hl, Option.map_some, hs.1.2]
  · have hg : (⟨t.types ++ [ty]⟩ : TypeTable).get? t.types.length = some ty := by
      simp [get?]
    simp only [typeId?, hg, Option.map_some, idOf_mono ho (List.prefix_append _ _) hc]

end TypeTable

/-! ### Handles of value types -/

/-- Neither a type nor its elements are undefined. -/
def ValueType.Defined : ValueType → Prop
  | .prim _ => True
  | .udt _ => True
  | .array element _ => element.Defined
  | .undefined => False

namespace TypeTable

/-- The handle of a value type is an entry of the grown table and has the id of the type. -/
theorem intern?_grown {t t' : TypeTable} {ty : ValueType} {h : Handle}
    (hi : t.intern? ty = some (h, t')) :
    t.Grown t' ∧ h < t'.types.length ∧ (t.Ordered → t'.typeId? h = some ty.typeId) := by
  induction ty generalizing t' h with
  | prim p =>
    have ha : t.add (.native p) = (h, t') := Option.some.inj hi
    have hg := add_grown t (.native p) trivial
    have hl := add_lt t (.native p)
    have hid := fun ho => typeId?_add (t := t) ho (.native p) trivial
    simp only [ha, idOf, idWithin] at hg hl hid
    exact ⟨hg, hl, hid⟩
  | udt id =>
    have ha : t.add (.udt id) = (h, t') := Option.some.inj hi
    have hg := add_grown t (.udt id) trivial
    have hl := add_lt t (.udt id)
    have hid := fun ho => typeId?_add (t := t) ho (.udt id) trivial
    simp only [ha, idOf, idWithin] at hg hl hid
    exact ⟨hg, hl, hid⟩
  | undefined => simp [intern?] at hi
  | array element dims ih =>
    simp only [intern?] at hi
    split at hi
    · next base t₁ hb =>
      obtain ⟨hg₁, hl₁, hid₁⟩ := ih hb
      have ha : t₁.add (.array base dims) = (h, t') := Option.some.inj hi
      have hg := add_grown t₁ (.array base dims) hl₁
      have hl := add_lt t₁ (.array base dims)
      have hid := fun ho => typeId?_add (t := t₁) ho (.array base dims) hl₁
      simp only [ha] at hg hl hid
      refine ⟨hg₁.trans hg, hl, fun ho => ?_⟩
      have ho₁ : t₁.Ordered := hg₁.ordered ho
      rw [hid ho₁, idOf_array ho₁ (hid₁ ho) dims]
      rfl
    · cases hi

theorem intern?_isSome {t : TypeTable} {ty : ValueType} (hd : ty.Defined) :
    (t.intern? ty).isSome := by
  induction ty with
  | prim p => rfl
  | udt id => rfl
  | undefined => exact hd.elim
  | array element dims ih =>
    obtain ⟨⟨base, t₁⟩, hb⟩ := Option.isSome_iff_exists.mp (ih hd)
    simp [intern?, hb]

end TypeTable

end StoragePlan
