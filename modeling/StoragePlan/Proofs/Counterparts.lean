import StoragePlan.Proofs.Portraits
import StoragePlan.Proofs.RecordedTypes
import StoragePlan.Proofs.ResemblingBodies
import StoragePlan.Proofs.RightItems

/-!
Sessions with counterparts. In two sessions at the top level of the same file, let every declaration in
view of the one have a counterpart in view of the other that says the same, and let no type have the name
of anything else. Then a name means the same in both, in whatever order the declarations were made, and
what is right in the one is right in the other.
-/

namespace StoragePlan

/-- One of the entries of a list that has no two of one key. -/
theorem eq_of_nodup_filterMap {α β : Type} {k : α → Option β} {xs : List α}
    (h : (xs.filterMap k).Nodup) {x y : α} (hx : x ∈ xs) (hy : y ∈ xs) {b : β} (hkx : k x = some b)
    (hky : k y = some b) : x = y := by
  induction xs with
  | nil => cases hx
  | cons z zs ih =>
    have hmem : ∀ w ∈ zs, k w = some b → b ∈ zs.filterMap k := fun w hw hk =>
      List.mem_filterMap.mpr ⟨w, hw, hk⟩
    rw [List.filterMap_cons] at h
    rcases List.mem_cons.mp hx with rfl | hxs <;> rcases List.mem_cons.mp hy with rfl | hys
    · rfl
    · rw [hkx, List.nodup_cons] at h
      exact absurd (hmem y hys hky) h.1
    · rw [hky, List.nodup_cons] at h
      exact absurd (hmem x hxs hkx) h.1
    · split at h
      · exact ih h hxs hys
      · exact ih (List.nodup_cons.mp h).2 hxs hys

/-! ### Bindings that say the same -/

namespace Binding

/-- The bindings are the same but for handles and places. -/
structure Alike (b b' : Binding) : Prop where
  id : b'.symbol.id = b.symbol.id
  isUdt : b'.symbol.isUdt = b.symbol.isUdt
  exported : b'.symbol.exported = b.symbol.exported
  constant : Check.isConstant (some b'.symbol) = Check.isConstant (some b.symbol)
  holding : b'.holding = b.holding

variable {b b' : Binding} {types types' : TypeTable}

theorem Alike.symm (h : b.Alike b') : b'.Alike b :=
  ⟨h.id.symm, h.isUdt.symm, h.exported.symm, h.constant.symm, h.holding.symm⟩

end Binding

theorem Item.Makes.alike {us us' : List Udt} {i i' : Item} {b b' : Binding} (h : i.Makes us b)
    (h' : i'.Makes us' b') (hi : i'.bare = i.bare) (hs : SameShapes us us') : b.Alike b' := by
  have hc := h.congr hi hs
  exact ⟨Option.some.inj (h'.id.symm.trans hc.id), h'.isUdt.trans hc.isUdt.symm,
    h'.exported.trans hc.exported.symm, h'.constant.trans hc.constant.symm,
    Option.some.inj (h'.holding.symm.trans hc.holding)⟩

/-- Arguments that are spelled the same have the same types. -/
theorem sameTypes_of_spelled {types types' : TypeTable} (ht : types.Tidy) (ht' : types'.Tidy)
    {args args' : List TypedName} {ms : List Member}
    (h : TypedName.spelled types args = Member.spelled ms)
    (h' : TypedName.spelled types' args' = Member.spelled ms) : SameTypes types types' args args' := by
  induction ms generalizing args args' with
  | nil =>
    rw [List.map_eq_nil_iff.mp h, List.map_eq_nil_iff.mp h']
    exact ⟨rfl, by simp, by simp⟩
  | cons m ms ih =>
    obtain ⟨a, args, rfl, ha, hargs⟩ := List.map_eq_cons_iff.mp h
    obtain ⟨a', args', rfl, ha', hargs'⟩ := List.map_eq_cons_iff.mp h'
    obtain ⟨hsame, hwithin, hwithin'⟩ := ih hargs hargs'
    have hid : types.typeId? a.type = some m.typeId := (Prod.mk.inj ha).2
    have hid' : types'.typeId? a'.type = some m.typeId := (Prod.mk.inj ha').2
    have hlt : a.type < types.types.length := by
      obtain ⟨_, hg, _⟩ := Option.map_eq_some_iff.mp hid
      exact TypeTable.get?_lt hg
    have hlt' : a'.type < types'.types.length := by
      obtain ⟨_, hg, _⟩ := Option.map_eq_some_iff.mp hid'
      exact TypeTable.get?_lt hg
    refine ⟨?_, List.forall_mem_cons.mpr ⟨hlt, hwithin⟩, List.forall_mem_cons.mpr ⟨hlt', hwithin'⟩⟩
    have hm : m.typeId = (types'.valueType a'.type).typeId :=
      Option.some.inj (hid'.symm.trans (ht'.typeId? hlt'))
    rw [List.map_cons, List.map_cons, hsame,
      ht.valueType_eq hlt (ht'.plain _ hlt') (hid.trans (congrArg some hm))]

/-- Bindings that say the same have symbols that look the same. -/
theorem Binding.Alike.like {b b' : Binding} {types types' : TypeTable} (h : b.Alike b')
    (hm : b.Matches types) (hm' : b'.Matches types') (ht : types.Tidy) (ht' : types'.Tidy) :
    b.symbol.Like types types' b'.symbol := by
  obtain ⟨⟨id, kind, exported, position⟩, holding⟩ := b
  obtain ⟨⟨id', kind', exported', position'⟩, holding'⟩ := b'
  obtain rfl : holding' = holding := h.holding
  have hu := h.isUdt
  have hc := h.constant
  cases kind with
  | udt fields => cases kind' <;> trivial
  | const k => cases kind' <;> trivial
  | var k =>
    cases kind' with
    | var k' => trivial
    | const k' => cases hc
    | udt fields' => cases hu
    | function args' returns' =>
      obtain ⟨e, he, _, _, _, rfl, _⟩ := hm.holds rfl
      obtain ⟨e', he', _, rfl, _⟩ := hm'.calls rfl
      cases he.symm.trans he'
  | function args returns =>
    cases kind' with
    | var k' =>
      obtain ⟨e, he, _, rfl, _⟩ := hm.calls rfl
      obtain ⟨e', he', _, _, _, rfl, _⟩ := hm'.holds rfl
      cases he.symm.trans he'
    | const k' => cases hc
    | udt fields' => cases hu
    | function args' returns' =>
      obtain ⟨e, he, sig, rfl, _, hargs, _⟩ := hm.calls rfl
      obtain ⟨e', he', sig', rfl, _, hargs', _⟩ := hm'.calls rfl
      have hsig := Option.some.inj (he.symm.trans he')
      obtain rfl : sig = sig' := Content.function.inj (congrArg Element.content hsig)
      exact sameTypes_of_spelled ht ht' hargs hargs'

theorem Symbol.like_of_isUdt (types types' : TypeTable) {x y : Symbol} (hx : x.isUdt = true)
    (hy : y.isUdt = true) : x.Like types types' y := by
  obtain ⟨_, kind, _, _⟩ := x
  obtain ⟨_, kind', _, _⟩ := y
  cases kind <;> cases kind' <;> trivial

/-- A function, a variable or a constant has an element. -/
theorem Binding.Matches.element_of_value {b : Binding} {types : TypeTable} (h : b.Matches types)
    (hu : b.symbol.isUdt = false) : ∃ e, b.element? = some e ∧ e.id = some b.symbol.id := by
  have hnone : b.udt?.isSome = false := h.isUdt ▸ hu
  cases hh : b.holding with
  | udt u => simp [Binding.udt?, hh] at hnone
  | element e =>
    have he : b.element? = some e := by simp [Binding.element?, hh]
    exact ⟨e, he, h.id_element he⟩

/-- What has an element is no type. -/
theorem Binding.Matches.isUdt_of_element? {b : Binding} {types : TypeTable} (h : b.Matches types)
    {e : Element} (he : b.element? = some e) : b.symbol.isUdt = false := by
  rw [h.isUdt]
  unfold Binding.element? at he
  split at he
  · next hh => simp [Binding.udt?, hh]
  · cases he

/-- Where storage holds the elements of all globals, and no two of one name, only one function, variable
or constant has a name. -/
theorem Ledger.value_unique {g : List (String × Binding)} {m : Tracker} {types : TypeTable}
    (hm : m.dataSegment = g.filterMap (·.2.element?)) (hd : m.Distinct)
    (hs : ∀ file b, (file, b) ∈ g → b.Matches types) {file file' : String} {b b' : Binding}
    (hb : (file, b) ∈ g) (hb' : (file', b') ∈ g) (hu : b.symbol.isUdt = false)
    (hu' : b'.symbol.isUdt = false) (hid : b.symbol.id = b'.symbol.id) : file = file' ∧ b = b' := by
  obtain ⟨e, he, heid⟩ := (hs file b hb).element_of_value hu
  obtain ⟨e', he', heid'⟩ := (hs file' b' hb').element_of_value hu'
  rw [Tracker.Distinct, hm, List.map_filterMap] at hd
  have heq := eq_of_nodup_filterMap hd hb hb' (b := e.id) (by simp [he])
    (by simp [he', heid, heid', hid])
  exact Prod.mk.inj heq

/-! ### What is in view -/

/-- The declaration is one of the session's file, or one that a file exports which this file imports. -/
def Session.InView (l : Ledger) (s : Session) (file : String) (b : Binding) : Prop :=
  (file, b) ∈ l.globals ∧ (file = s.file ∨ file ∈ s.outer ∧ b.symbol.exported = true)

namespace Coherent

variable {l : Ledger} {s : Session} {id file : String} {x : Symbol} {b : Binding}

theorem local?_top (h : Coherent l s) (hl : l.scopes = []) {t : SymbolTable}
    (ht : s.names.table? s.file = some t) (id : String) :
    t.local? id = ((l.ofFile s.file).map (·.symbol)).find? (·.id == id) := by
  rw [SymbolTable.local?, SymbolTable.visible, h.scopes t ht, hl, h.symbols s.file t ht]
  rfl

/-- A name means a declaration in view. -/
theorem inView_of_lookup? (h : Coherent l s) (hl : l.scopes = [])
    (hx : s.names.lookup? s.file id = some x) :
    ∃ file b, s.InView l file b ∧ b.symbol = x ∧ x.id = id := by
  obtain ⟨t, ht⟩ := Option.isSome_iff_exists.mp h.table
  have hid := Registry.lookup?_id hx
  have hof : ∀ {f : String} {p : Symbol → Bool},
      ((l.ofFile f).map (·.symbol)).find? p = some x → ∃ b, (f, b) ∈ l.globals ∧ b.symbol = x := by
    intro f p hf
    obtain ⟨b, hb, hbx⟩ := List.mem_map.mp (List.mem_of_find?_eq_some hf)
    exact ⟨b, Ledger.mem_ofFile.mp hb, hbx⟩
  simp only [Registry.lookup?, ht, h.local?_top hl ht] at hx
  split at hx
  · next hfind =>
    cases hx
    obtain ⟨b, hb, hbx⟩ := hof hfind
    exact ⟨s.file, b, ⟨hb, .inl rfl⟩, hbx, hid⟩
  · obtain ⟨f, hf, hex⟩ := List.exists_of_findSome?_eq_some hx
    obtain ⟨t', ht', hx'⟩ := Option.bind_eq_some_iff.mp hex
    rw [SymbolTable.exported?, h.symbols f t' ht'] at hx'
    obtain ⟨b, hb, hbx⟩ := hof hx'
    have hexported := List.find?_some hx'
    simp only [Bool.and_eq_true] at hexported
    refine ⟨f, b, ⟨hb, .inr ⟨?_, hbx ▸ hexported.1⟩⟩, hbx, hid⟩
    simpa [Session.outer, ht] using hf

/-- The name of a declaration in view means something. -/
theorem isSome_lookup? (h : Coherent l s) (hl : l.scopes = []) (hb : s.InView l file b)
    (htable : (s.names.table? file).isSome) :
    (s.names.lookup? s.file b.symbol.id).isSome := by
  obtain ⟨t, ht⟩ := Option.isSome_iff_exists.mp h.table
  have hmem : b.symbol ∈ (l.ofFile file).map (·.symbol) :=
    List.mem_map_of_mem (Ledger.mem_ofFile.mpr hb.1)
  simp only [Registry.lookup?, ht, h.local?_top hl ht]
  split
  · rfl
  · next hnone =>
    rcases hb.2 with rfl | ⟨hfile, hexported⟩
    · simpa using List.find?_eq_none.mp hnone _ hmem
    · obtain ⟨t', ht'⟩ := Option.isSome_iff_exists.mp htable
      rw [List.findSome?_isSome_iff]
      refine ⟨file, by simpa [Session.outer, ht] using hfile, ?_⟩
      rw [Registry.exported?, ht', Option.bind_some, SymbolTable.exported?, h.symbols file t' ht',
        List.find?_isSome]
      exact ⟨b.symbol, hmem, by simp [hexported]⟩

/-- A function, a variable or a constant has an element. -/
theorem element_of_value (h : Coherent l s) (hb : (file, b) ∈ l.globals)
    (hu : b.symbol.isUdt = false) : ∃ e, b.element? = some e ∧ e.id = some b.symbol.id :=
  (h.sound b (.inr ⟨file, hb⟩)).element_of_value hu

/-- Outside of functions a name finds the element of its declaration. -/
theorem find?_element (h : Coherent l s) (hl : l.scopes = []) (hb : (file, b) ∈ l.globals) {e : Element}
    (he : b.element? = some e) : (s.memory.find? b.symbol.id).map (·.element) = some e := by
  have hmem : e ∈ s.memory.dataSegment := by
    rw [h.dataSegment]
    exact List.mem_filterMap.mpr ⟨(file, b), hb, he⟩
  have hid := (h.sound b (.inr ⟨file, hb⟩)).id_element he
  rw [Tracker.find?_element, h.stack, Ledger.locals, hl]
  exact h.distinct.find?_eq hmem hid

/-- Only one function, variable or constant of all files has a name. -/
theorem value_unique (h : Coherent l s) {file' : String} {b' : Binding} (hb : (file, b) ∈ l.globals)
    (hb' : (file', b') ∈ l.globals) (hu : b.symbol.isUdt = false) (hu' : b'.symbol.isUdt = false)
    (hid : b.symbol.id = b'.symbol.id) : file = file' ∧ b = b' :=
  Ledger.value_unique h.dataSegment h.distinct (fun _ _ hb => h.sound _ (.inr ⟨_, hb⟩)) hb hb' hu hu' hid

end Coherent

/-! ### Counterparts -/

/-- Every declaration in view of one session has a counterpart in view of the other, and what has the
name of a type is a type. -/
structure Counterparts (l l' : Ledger) (s t : Session) : Prop where
  left : Coherent l s
  right : Coherent l' t
  top : l.scopes = []
  top' : l'.scopes = []
  tables : ∀ f b, s.InView l f b → (s.names.table? f).isSome
  tables' : ∀ f b, t.InView l' f b → (t.names.table? f).isSome
  there : ∀ f b, s.InView l f b → ∃ b', t.InView l' f b' ∧ b.Alike b'
  back : ∀ f b', t.InView l' f b' → ∃ b, s.InView l f b ∧ b.Alike b'
  apart : ∀ f b f' b', s.InView l f b → s.InView l f' b' → b.symbol.id = b'.symbol.id →
    b.symbol.isUdt = b'.symbol.isUdt

namespace Counterparts

variable {l l' : Ledger} {s t : Session} {id : String} {x : Symbol}

theorem symm (h : Counterparts l l' s t) : Counterparts l' l t s where
  left := h.right
  right := h.left
  top := h.top'
  top' := h.top
  tables := h.tables'
  tables' := h.tables
  there f b hb := by
    obtain ⟨b', hb', ha⟩ := h.back f b hb
    exact ⟨b', hb', ha.symm⟩
  back f b hb := by
    obtain ⟨b', hb', ha⟩ := h.there f b hb
    exact ⟨b', hb', ha.symm⟩
  apart f b f' b' hb hb' hid := by
    obtain ⟨c, hc, ha⟩ := h.back f b hb
    obtain ⟨c', hc', ha'⟩ := h.back f' b' hb'
    have hsame := h.apart f c f' c' hc hc' (by rw [← ha.id, ← ha'.id, hid])
    rw [ha.isUdt, ha'.isUdt, hsame]

/-- A name that means something in one session means something of the same sort in the other. If it is
no type, the two are counterparts. -/
theorem lookup? (h : Counterparts l l' s t) (hx : s.names.lookup? s.file id = some x) :
    ∃ f b f' b', s.InView l f b ∧ b.symbol = x ∧ t.InView l' f' b' ∧
      t.names.lookup? t.file id = some b'.symbol ∧ b'.symbol.isUdt = x.isUdt ∧
      (x.isUdt = false → b.Alike b') := by
  obtain ⟨f, b, hb, rfl, rfl⟩ := h.left.inView_of_lookup? h.top hx
  obtain ⟨b₁, hb₁, ha₁⟩ := h.there f b hb
  have hsome := h.right.isSome_lookup? h.top' hb₁ (h.tables' f b₁ hb₁)
  rw [ha₁.id] at hsome
  obtain ⟨y, hy⟩ := Option.isSome_iff_exists.mp hsome
  obtain ⟨f', b', hb', rfl, hid⟩ := h.right.inView_of_lookup? h.top' hy
  obtain ⟨c, hc, ha⟩ := h.back f' b' hb'
  have hcid : b.symbol.id = c.symbol.id := by rw [← ha.id, hid]
  have hkind := h.apart f b f' c hb hc hcid
  refine ⟨f, b, f', b', hb, rfl, hb', hy, by rw [ha.isUdt, hkind], fun hu => ?_⟩
  obtain ⟨_, rfl⟩ := h.left.value_unique hb.1 hc.1 hu (hkind ▸ hu) hcid
  exact ha

/-- The same types are known. -/
theorem known_iff (h : Counterparts l l' s t) (id : String) :
    Check.Known t.names t.file id ↔ Check.Known s.names s.file id := by
  have hmono : ∀ {l l' s t}, Counterparts l l' s t →
      Check.Known s.names s.file id → Check.Known t.names t.file id := by
    rintro l l' s t h ⟨x, hx, hu⟩
    obtain ⟨_, _, _, b', _, _, _, hy, hkind, _⟩ := h.lookup? hx
    exact ⟨b'.symbol, hy, hkind.trans hu⟩
  exact ⟨hmono h.symm, hmono h⟩

/-- The sessions look the same if their types do. -/
theorem akin (h : Counterparts l l' s t) (hs : s.names.types.Tidy) (ht : t.names.types.Tidy)
    (hshapes : SameShapes s.memory.udts t.memory.udts) :
    Check.Akin s.names.types t.names.types s t where
  stack := by rw [h.left.stack, h.right.stack, Ledger.locals, Ledger.locals, h.top, h.top']
  shapes := hshapes.2
  count := hshapes.1
  absent id hnone := by
    cases hy : t.names.lookup? t.file id with
    | none => rfl
    | some y =>
      obtain ⟨_, _, _, b, _, _, _, hx, _⟩ := h.symm.lookup? hy
      cases hnone.symm.trans hx
  present id x hx := by
    obtain ⟨f, b, f', b', hb, rfl, hb', hy, hkind, halike⟩ := h.lookup? hx
    refine ⟨b'.symbol, hy, ?_, fun hu => ?_⟩
    · cases hu : b.symbol.isUdt with
      | true => exact Symbol.like_of_isUdt _ _ hu (hkind.trans hu)
      | false =>
        exact (halike hu).like (h.left.sound b (.inr ⟨f, hb.1⟩)) (h.right.sound b' (.inr ⟨f', hb'.1⟩))
          hs ht
    · obtain ⟨e, he, _⟩ := h.left.element_of_value hb.1 hu
      have he' : b'.element? = some e := by
        rw [← he, Binding.element?, Binding.element?, (halike hu).holding]
      rw [← Registry.lookup?_id hx, h.left.find?_element h.top hb.1 he, ← (halike hu).id,
        h.right.find?_element h.top' hb'.1 he']
  ordered := h.left.ordered
  ordered' := h.right.ordered
  types := .refl _
  types' := .refl _

end Counterparts

end StoragePlan
