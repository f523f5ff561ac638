import StoragePlan.Proofs.Decoding

/-!
Giving handles is exact and stable. The table compares types by sort and id, and the id of an array is
computed through handles of the very table that grows. Still two types are given one handle exactly if
they are equal, whatever is added in between, and a handle never changes its meaning. What every addition
preserves is that the table is tidy and that its entries are apart.
-/

namespace StoragePlan

namespace TypeTable

variable {t t' : TypeTable} {h k : Nat} {x y : SymbolType} {ty : ValueType}

/-- Gives handles to some types in turn. -/
def internAll (t : TypeTable) : List ValueType → Option (List Handle × TypeTable)
  | [] => some ([], t)
  | ty :: rest =>
    match t.intern? ty with
    | none => none
    | some (h, t') => (t'.internAll rest).map fun r => (h :: r.1, r.2)

/-! ### Entries are apart -/

/-- No two entries have the same sort and the same id. -/
def Apart (t : TypeTable) : Prop :=
  ∀ (h k : Handle) (x y : SymbolType), t.get? h = some x → t.get? k = some y →
    x.sameSort y = true → t.idOf x = t.idOf y → h = k

theorem sameSort_comm (x y : SymbolType) : x.sameSort y = y.sameSort x := by
  cases x <;> cases y <;> rfl

/-- The entries of a table with one more. -/
theorem get?_of_append (hg : (⟨t.types ++ [y]⟩ : TypeTable).get? h = some x) :
    t.get? h = some x ∨ h = t.types.length ∧ x = y := by
  unfold get? at hg ⊢
  rcases Nat.lt_or_ge h t.types.length with hl | hl
  · rw [List.getElem?_append_left hl] at hg
    exact .inl hg
  · rw [List.getElem?_append_right hl, List.getElem?_singleton] at hg
    split at hg
    · next hz => exact .inr ⟨by omega, (Option.some.inj hg).symm⟩
    · cases hg

theorem Apart.add (ha : t.Apart) (ho : t.Ordered) (hc : t.Covers y) : (t.add y).2.Apart := by
  simp only [TypeTable.add]
  split
  · exact ha
  · next hnone =>
    have hids : ∀ {z : SymbolType}, t.Covers z → (⟨t.types ++ [y]⟩ : TypeTable).idOf z = t.idOf z :=
      fun hz => idOf_mono ho (List.prefix_append _ _) hz
    -- The search for an entry like the new one has found none.
    have hnew : ∀ (h : Handle) (x : SymbolType), t.get? h = some x → x.sameSort y = true →
        t.idOf x ≠ t.idOf y := by
      intro h x hg hsort hid
      have hno := List.findIdx?_eq_none_iff.mp hnone x (List.mem_of_getElem? hg)
      simp [hsort, hid] at hno
    intro h k x z hgx hgz hsort hid
    rcases get?_of_append hgx with hx | ⟨hh, hxy⟩ <;> rcases get?_of_append hgz with hz | ⟨hk, hzy⟩
    · rw [hids (covers_entry ho hx), hids (covers_entry ho hz)] at hid
      exact ha h k x z hx hz hsort hid
    · subst hzy
      rw [hids (covers_entry ho hx), hids hc] at hid
      exact absurd hid (hnew h x hx hsort)
    · subst hxy
      rw [hids hc, hids (covers_entry ho hz)] at hid
      rw [sameSort_comm] at hsort
      exact absurd hid.symm (hnew k z hz hsort)
    · rw [hh, hk]

theorem Apart.intern? (ha : t.Apart) (ho : t.Ordered) (hi : t.intern? ty = some (h, t')) :
    t'.Apart := by
  induction ty generalizing h t' with
  | prim p =>
    have hadd : t.add (.native p) = (h, t') := Option.some.inj hi
    have hapart := ha.add ho (y := .native p) trivial
    rwa [hadd] at hapart
  | udt id =>
    have hadd : t.add (.udt id) = (h, t') := Option.some.inj hi
    have hapart := ha.add ho (y := .udt id) trivial
    rwa [hadd] at hapart
  | undefined => cases hi
  | array element dims ih =>
    simp only [TypeTable.intern?] at hi
    split at hi
    · next base t₁ hb =>
      obtain ⟨hgrown, hl, _⟩ := intern?_grown hb
      have hadd : t₁.add (.array base dims) = (h, t') := Option.some.inj hi
      have hapart := (ih hb).add (hgrown.ordered ho) (y := .array base dims) hl
      rwa [hadd] at hapart
    · cases hi

/-! ### Types and their handles -/

/-- The entry of a type has the sort of the type. -/
def Stands : SymbolType → ValueType → Prop
  | .native _, .prim _ => True
  | .udt _, .udt _ => True
  | .array _ _, .array _ _ => True
  | _, _ => False

theorem Tidy.stands (ht : t.Tidy) (hg : t.get? h = some x) : Stands x (t.valueType h) := by
  cases x with
  | native p => simp [valueType_native hg, Stands]
  | udt id => simp [valueType_udt hg, Stands]
  | array base dims => simp [valueType_array ht.ordered hg, Stands]
  | function id =>
    have hp := ht.plain h (get?_lt hg)
    obtain ⟨n, hn⟩ : ∃ m, t.types.length = m + 1 := ⟨t.types.length - 1, by have := get?_lt hg; omega⟩
    simp [valueType, hn, valueWithin, hg, ValueType.Plain, ValueType.Simple] at hp

theorem sameSort_of_stands (hx : Stands x ty) (hy : Stands y ty) : x.sameSort y = true := by
  cases ty <;> cases x <;> cases y <;> simp_all [Stands, SymbolType.sameSort]

/-- In a tidy table whose entries are apart, a type has one handle. -/
theorem Tidy.handle_eq (ht : t.Tidy) (ha : t.Apart) (hh : h < t.types.length)
    (hk : k < t.types.length) (heq : t.valueType h = t.valueType k) : h = k := by
  obtain ⟨x, hx⟩ := get?_of_lt hh
  obtain ⟨y, hy⟩ := get?_of_lt hk
  have hsort : x.sameSort y = true := sameSort_of_stands (ht.stands hx) (heq ▸ ht.stands hy)
  have hids : some (t.idOf x) = some (t.idOf y) :=
    calc some (t.idOf x)
      _ = t.typeId? h := by rw [TypeTable.typeId?, hx, Option.map_some]
      _ = t.typeId? k := by rw [ht.typeId? hh, ht.typeId? hk, heq]
      _ = some (t.idOf y) := by rw [TypeTable.typeId?, hy, Option.map_some]
  exact ha h k x y hx hy hsort (Option.some.inj hids)

/-- What giving handles to some types does to a table: each of them is an entry that stands for its
type. -/
structure Interned (tys : List ValueType) (hs : List Handle) (t t' : TypeTable) : Prop where
  length : hs.length = tys.length
  grown : t.Grown t'
  tidy : t'.Tidy
  apart : t'.Apart
  entries : ∀ a ∈ tys.zip hs, a.2 < t'.types.length ∧ t'.valueType a.2 = a.1

theorem Interned.append {earlier later : List ValueType} {hs ks : List Handle} {t₁ t₂ t₃ : TypeTable}
    (he : Interned earlier hs t₁ t₂) (hl : Interned later ks t₂ t₃) :
    Interned (earlier ++ later) (hs ++ ks) t₁ t₃ where
  length := by simp [he.length, hl.length]
  grown := he.grown.trans hl.grown
  tidy := hl.tidy
  apart := hl.apart
  entries := by
    rw [List.zip_append he.length.symm, List.forall_mem_append]
    refine ⟨fun a ha => ?_, hl.entries⟩
    obtain ⟨hlt, htype⟩ := he.entries a ha
    refine ⟨Nat.lt_of_lt_of_le hlt hl.grown.entries.length_le, ?_⟩
    rw [valueType_mono he.tidy.ordered hl.grown.entries hlt, htype]

theorem internAll_interned (ht : t.Tidy) (ha : t.Apart) {tys : List ValueType}
    (hp : ∀ ty ∈ tys, ty.Plain) : ∃ hs t', t.internAll tys = some (hs, t') ∧ Interned tys hs t t' := by
  induction tys generalizing t with
  | nil => exact ⟨[], t, rfl, rfl, .refl t, ht, ha, by simp⟩
  | cons ty tys ih =>
    rw [List.forall_mem_cons] at hp
    obtain ⟨⟨h, t₁⟩, hi⟩ := Option.isSome_iff_exists.mp (intern?_isSome (t := t) hp.1.defined)
    obtain ⟨hgrown, hlt, _⟩ := intern?_grown hi
    obtain ⟨htidy, htype⟩ := ht.intern? hp.1 hi
    have hapart := ha.intern? ht.ordered hi
    obtain ⟨hs, t', hrun, hrest⟩ := ih htidy hapart hp.2
    have hfirst : Interned [ty] [h] t t₁ := ⟨rfl, hgrown, htidy, hapart, by simp [hlt, htype]⟩
    exact ⟨h :: hs, t', by simp [internAll, hi, hrun], hfirst.append hrest⟩

theorem apart_empty : Apart empty := by
  intro h k x y hx
  cases hx

end TypeTable

/-- Handles are given exactly and for good. When handles are given, first to some types and later to
others, all of them types that a program can write, two types are given the same handle if and only if
they are equal; in the end every handle stands for its type and has its id; an array refers to an entry
before its own, so that its id is that of its elements with the dimensions after it; and no two entries
have the same sort and id. -/
theorem interning_exact (earlier later : List ValueType) (hp : ∀ ty ∈ earlier ++ later, ty.Plain) :
    ∃ hs t ks t', TypeTable.empty.internAll earlier = some (hs, t) ∧
      t.internAll later = some (ks, t') ∧
      hs.length = earlier.length ∧ ks.length = later.length ∧
      (∀ a ∈ (earlier ++ later).zip (hs ++ ks), ∀ b ∈ (earlier ++ later).zip (hs ++ ks),
        (a.2 = b.2 ↔ a.1 = b.1)) ∧
      (∀ a ∈ (earlier ++ later).zip (hs ++ ks),
        t'.valueType a.2 = a.1 ∧ t'.typeId? a.2 = some a.1.typeId) ∧
      (∀ h base dims, t'.get? h = some (.array base dims) → base < h ∧
        ∃ id, t'.typeId? base = some id ∧ t'.typeId? h = some (id ++ dimsText dims)) ∧
      ∀ h k x y, t'.get? h = some x → t'.get? k = some y → x.sameSort y = true →
        t'.idOf x = t'.idOf y → h = k := by
  rw [List.forall_mem_append] at hp
  obtain ⟨hs, t, hearlier, he⟩ :=
    TypeTable.internAll_interned TypeTable.tidy_empty TypeTable.apart_empty hp.1
  obtain ⟨ks, t', hlater, hl⟩ := TypeTable.internAll_interned he.tidy he.apart hp.2
  have hall := he.append hl
  refine ⟨hs, t, ks, t', hearlier, hlater, he.length, hl.length, fun a ha b hb => ?_, fun a ha => ?_,
    fun h base dims hg => ?_, hl.apart⟩
  · obtain ⟨hlta, htypea⟩ := hall.entries a ha
    obtain ⟨hltb, htypeb⟩ := hall.entries b hb
    constructor
    · intro heq
      rw [← htypea, ← htypeb, heq]
    · intro heq
      exact hl.tidy.handle_eq hl.apart hlta hltb (by rw [htypea, htypeb, heq])
  · obtain ⟨hlt, htype⟩ := hall.entries a ha
    exact ⟨htype, by rw [hl.tidy.typeId? hlt, htype]⟩
  · have hbase : base < h := hl.tidy.ordered h base dims hg
    have hid := hl.tidy.typeId? (Nat.lt_trans hbase (TypeTable.get?_lt hg))
    refine ⟨hbase, _, hid, ?_⟩
    rw [TypeTable.typeId?, hg, Option.map_some, TypeTable.idOf_array hl.tidy.ordered hid]

/-- An array of two dimensions and a name, then the elements of the array, the name again and an array of
one dimension: the element type was an entry already. -/
theorem interning_exact_nestedDims :
    ∃ t ks t', TypeTable.empty.internAll [.array (.prim .u8) [4, 2], .udt "Point"] = some ([1, 2], t) ∧
      t.internAll [.prim .u8, .udt "Point", .array (.prim .u8) [4]] = some (ks, t') ∧
      ks = [0, 2, 3] ∧ t'.valueType 1 = .array (.prim .u8) [4, 2] ∧ t'.typeId? 1 = some "u8[4][2]" := by
  have hname : IsName "Point" := ⟨by decide, List.all_eq_true.mp (by decide +kernel), by decide⟩
  have hp : ∀ ty ∈ [ValueType.array (.prim .u8) [4, 2], .udt "Point"] ++
      [.prim .u8, .udt "Point", .array (.prim .u8) [4]], ty.Plain := by
    simp [ValueType.Plain, ValueType.Simple, hname, wordLimit]
  obtain ⟨hs, t, ks, t', hearlier, hlater, _, _, _, htypes, _⟩ := interning_exact _ _ hp
  have hrun : TypeTable.empty.internAll [.array (.prim .u8) [4, 2], .udt "Point"] =
      some ([1, 2], ⟨[.native .u8, .array 0 [4, 2], .udt "Point"]⟩) := by decide
  obtain ⟨rfl, rfl⟩ : hs = [1, 2] ∧ t = _ :=
    Prod.mk.inj (Option.some.inj (hearlier.symm.trans hrun))
  have hrun' : (⟨[.native .u8, .array 0 [4, 2], .udt "Point"]⟩ : TypeTable).internAll
      [.prim .u8, .udt "Point", .array (.prim .u8) [4]] = some ([0, 2, 3],
        ⟨[.native .u8, .array 0 [4, 2], .udt "Point", .array 0 [4]]⟩) := by decide
  obtain ⟨rfl, rfl⟩ : ks = [0, 2, 3] ∧ t' = _ :=
    Prod.mk.inj (Option.some.inj (hlater.symm.trans hrun'))
  have hfirst := htypes (.array (.prim .u8) [4, 2], 1) (by simp)
  exact ⟨_, _, _, hearlier, hlater, rfl, hfirst.1, hfirst.2.trans (by decide)⟩

end StoragePlan
