import StoragePlan.Proofs.Counterparts
import StoragePlan.Proofs.Reorders

/-!
The check of a file in two projects. The one project belongs to a library, the other to a library whose
files have the same items in other orders, and both are about to check the same file. What one project
knows of a file the other knows as well, so what is in view in one of the checks has a counterpart in the
other, and so it stays while the declarations of the file are made.
-/

namespace StoragePlan

open Relation Project

/-! ### Libraries with the same items -/

namespace Library

/-- The files of the one library are those of the other with their items in some order. -/
def Reordered (lib lib' : Library) : Prop := ∀ file,
  (∀ source, Project.load lib file = .ok source →
    ∃ source', Project.load lib' file = .ok source' ∧ source.Reorders source') ∧
  ∀ source', Project.load lib' file = .ok source' →
    ∃ source, Project.load lib file = .ok source ∧ source.Reorders source'

variable {lib lib' : Library} {file o id : String}

theorem Reordered.symm (h : lib.Reordered lib') : lib'.Reordered lib := fun file =>
  ⟨fun source hl => by
    obtain ⟨source', hl', hr⟩ := (h file).2 source hl
    exact ⟨source', hl', hr.symm⟩,
   fun source hl => by
    obtain ⟨source', hl', hr⟩ := (h file).1 source hl
    exact ⟨source', hl', hr.symm⟩⟩

theorem Reordered.refl (lib : Library) : lib.Reordered lib := fun _ =>
  ⟨fun source hl => ⟨source, hl, .refl _⟩, fun source hl => ⟨source, hl, .refl _⟩⟩

theorem Reordered.imports (h : lib.Reordered lib') (hi : lib.Imports file o) : lib'.Imports file o := by
  obtain ⟨source, hl, i, hi, rfl⟩ := hi
  obtain ⟨source', hl', hr⟩ := (h file).1 source hl
  obtain ⟨i', hi', hbare⟩ := exists_of_perm_map hr.imports hi
  exact ⟨source', hl', i', hi', (congrArg Import.file hbare : i'.bare.file = i.bare.file)⟩

theorem Reordered.defines (h : lib.Reordered lib') {u : Udt} (hu : lib.Defines file u) :
    lib'.Defines file u := by
  obtain ⟨source, hl, d, hd, rfl⟩ := hu
  obtain ⟨source', hl', hr⟩ := (h file).1 source hl
  obtain ⟨d', hd', hbare⟩ := exists_of_perm_map hr.types hd
  exact ⟨source', hl', d', hd', TypeDef.udt_congr hbare⟩

theorem Reordered.reaches (h : lib.Reordered lib') (hp : ReflTransGen lib.Imports file o) :
    ReflTransGen lib'.Imports file o := hp.lift id fun _ _ => h.imports

theorem Reordered.leads (h : lib.Reordered lib') (hp : TransGen lib.Imports file o) :
    TransGen lib'.Imports file o := hp.lift id fun _ _ => h.imports

/-- The same types are active for a file. -/
theorem Reordered.sameShapes (h : lib.Reordered lib') {us us' : List Udt} (ha : lib.Active file us)
    (ha' : lib'.Active file us') : SameShapes us us' := by
  refine ha.sameShapes ha' fun u => ?_
  rw [ha.mem, ha'.mem]
  constructor
  · rintro ⟨o, ho, hu⟩
    exact ⟨o, h.symm.reaches ho, h.symm.defines hu⟩
  · rintro ⟨o, ho, hu⟩
    exact ⟨o, h.reaches ho, h.defines hu⟩

/-- The file defines a type of this name. -/
def HasType (lib : Library) (file id : String) : Prop :=
  ∃ source, Project.load lib file = .ok source ∧ ∃ d ∈ source.types, d.name.name? = some id

/-- The file declares a function, a variable or a constant of this name. -/
def HasValue (lib : Library) (file id : String) : Prop :=
  ∃ source, Project.load lib file = .ok source ∧ ∃ i ∈ source.items, ∃ t ∈ i.name?, t.name? = some id

theorem Reordered.hasType (h : lib.Reordered lib') (ht : lib.HasType file id) :
    lib'.HasType file id := by
  obtain ⟨source, hl, d, hd, hid⟩ := ht
  obtain ⟨source', hl', hr⟩ := (h file).1 source hl
  obtain ⟨d', hd', hbare⟩ := exists_of_perm_map hr.types hd
  exact ⟨source', hl', d', hd', (Token.name?_congr (congrArg TypeDef.name hbare)).trans hid⟩

theorem Reordered.hasValue (h : lib.Reordered lib') (hv : lib.HasValue file id) :
    lib'.HasValue file id := by
  obtain ⟨source, hl, i, hi, t, ht, hid⟩ := hv
  obtain ⟨source', hl', hr⟩ := (h file).1 source hl
  obtain ⟨i', hi', hbare⟩ := hr.item hi
  have hname : i'.name?.map Token.bare = some t.bare := by
    rw [← Item.name?_bare, hbare, Item.name?_bare, ht, Option.map_some]
  obtain ⟨t', ht', htb⟩ := Option.map_eq_some_iff.mp hname
  exact ⟨source', hl', i', hi', t', ht', (Token.name?_congr htb).trans hid⟩

/-- In these files no type has the name of a function, a variable or a constant. -/
def Separate (lib : Library) (files : String → Prop) : Prop :=
  ∀ f f' id, files f → files f' → lib.HasType f id → ¬ lib.HasValue f' id

end Library

/-! ### Bindings and the items behind them -/

section Made

variable {us : List Udt} {source : SourceFile} {is : List Item} {bs : List Binding} {b : Binding}
  {lib : Library} {file : String}

/-- What a binding is declared as stands in the file. -/
theorem Made.hasType (h : Made us is bs) (his : ∀ i ∈ is, i ∈ source.items)
    (hl : load lib file = .ok source) (hb : b ∈ bs) (hu : b.symbol.isUdt = true) :
    lib.HasType file b.symbol.id := by
  obtain ⟨i, hi, hm⟩ := h.source b hb
  have hv : i.isValue = false := by simpa [hu] using hm.isUdt
  have hid := hm.id
  cases i with
  | typeDef d => exact ⟨source, hl, d, SourceFile.mem_types.mpr (his _ hi), hid⟩
  | importFile i => cases hid
  | _ => cases hv

theorem Made.hasValue (h : Made us is bs) (his : ∀ i ∈ is, i ∈ source.items)
    (hl : load lib file = .ok source) (hb : b ∈ bs) (hu : b.symbol.isUdt = false) :
    lib.HasValue file b.symbol.id := by
  obtain ⟨i, hi, hm⟩ := h.source b hb
  have hv : i.isValue = true := by simpa [hu] using hm.isUdt
  obtain ⟨t, ht⟩ := Option.isSome_iff_exists.mp hv
  exact ⟨source, hl, i, his i hi, t, ht, by rw [← Item.id?_of_name? ht, hm.id]⟩

/-- Bindings of the same items say the same. -/
theorem Made.counterpart (h : Made us is bs) {us' : List Udt} {is' : List Item} {bs' : List Binding}
    (h' : Made us' is' bs') (his : ∀ i ∈ is, ∃ i' ∈ is', i'.bare = i.bare) (hs : SameShapes us us')
    (hb : b ∈ bs) : ∃ b' ∈ bs', b.Alike b' := by
  obtain ⟨i, hi, hm⟩ := h.source b hb
  obtain ⟨i', hi', hbare⟩ := his i hi
  have hholding : (i'.holding? us').isSome := by
    rw [Item.holding?_of_bare hbare hs, hm.holding]
    rfl
  obtain ⟨b', hb', hm'⟩ := h'.all i' hi' hholding
  exact ⟨b', hb', hm.alike hm' hbare hs⟩

theorem Made.isUdt_of_types {ds : List TypeDef} (h : Made us (ds.map .typeDef) bs) (hb : b ∈ bs) :
    b.symbol.isUdt = true := by
  obtain ⟨i, hi, hm⟩ := h.source b hb
  obtain ⟨d, _, rfl⟩ := List.mem_map.mp hi
  exact hm.isUdt

end Made

theorem SourceFile.mem_of_types {f : SourceFile} : ∀ i ∈ f.types.map Item.typeDef, i ∈ f.items := by
  intro i hi
  obtain ⟨d, hd, rfl⟩ := List.mem_map.mp hi
  exact SourceFile.mem_types.mp hd

namespace Project

variable {lib lib' : Library} {g g' : List (String × Binding)} {p q : Project} {f : String} {b : Binding}

namespace Portrayed

theorem hasType (h : Portrayed lib g p) (hb : (f, b) ∈ g) (hu : b.symbol.isUdt = true) :
    lib.HasType f b.symbol.id := by
  obtain ⟨source, us, hp⟩ := h.portrait f (h.owners f b hb)
  exact hp.made.hasType (fun _ hi => hi) hp.loaded (Ledger.mem_ofFile.mpr hb) hu

theorem hasValue (h : Portrayed lib g p) (hb : (f, b) ∈ g) (hu : b.symbol.isUdt = false) :
    lib.HasValue f b.symbol.id := by
  obtain ⟨source, us, hp⟩ := h.portrait f (h.owners f b hb)
  exact hp.made.hasValue (fun _ hi => hi) hp.loaded (Ledger.mem_ofFile.mpr hb) hu

/-- What a project knows of a file, every other that has verified it knows as well. -/
theorem counterpart (h : Portrayed lib g p) (h' : Portrayed lib' g' q) (hr : lib.Reordered lib')
    (hb : (f, b) ∈ g) (hf : (q.verified? f).isSome) : ∃ b', (f, b') ∈ g' ∧ b.Alike b' := by
  obtain ⟨source, us, hp⟩ := h.portrait f (h.owners f b hb)
  obtain ⟨source', us', hp'⟩ := h'.portrait f hf
  obtain ⟨source₁, hl, hitems⟩ := (hr f).1 source hp.loaded
  obtain rfl : source' = source₁ := Except.ok.inj (hp'.loaded.symm.trans hl)
  obtain ⟨b', hb', ha⟩ := hp.made.counterpart hp'.made (fun i hi => hitems.item hi)
    (hr.sameShapes hp.active hp'.active) (Ledger.mem_ofFile.mpr hb)
  exact ⟨b', Ledger.mem_ofFile.mp hb', ha⟩

/-- Every global of a project is one of each other that has verified the same files. -/
theorem mem_dataSegment (h : Portrayed lib g p) (h' : Portrayed lib' g' q) (hr : lib.Reordered lib')
    (hf : ∀ f, (p.verified? f).isSome → (q.verified? f).isSome) {e : Element}
    (he : e ∈ p.memory.dataSegment) : e ∈ q.memory.dataSegment := by
  rw [h.dataSegment] at he
  rw [h'.dataSegment]
  obtain ⟨⟨f, b⟩, hb, he⟩ := List.mem_filterMap.mp he
  obtain ⟨b', hb', ha⟩ := h.counterpart h' hr hb (hf f (h.owners f b hb))
  refine List.mem_filterMap.mpr ⟨(f, b'), hb', ?_⟩
  rw [← he, Binding.element?, Binding.element?, ha.holding]

end Portrayed

/-! ### The same file in both projects -/

/-- The session in which a project begins the check of a file. -/
def session (p : Project) (file : String) (udts : List Udt) : Session :=
  .start file (p.storageWith udts) p.names

/-- Both projects are about to check the same file. -/
structure Paired (lib lib' : Library) (g g' : List (String × Binding)) (p q : Project) (file : String)
    (source source' : SourceFile) (udts udts' : List Udt) : Prop where
  reordered : lib.Reordered lib'
  left : Portrayed lib g p
  right : Portrayed lib' g' q
  ready : Ready lib file source udts p
  ready' : Ready lib' file source' udts' q

namespace Paired

variable {file : String} {source source' : SourceFile} {udts udts' : List Udt}
  (h : Paired lib lib' g g' p q file source source' udts udts')

include h

theorem symm : Paired lib' lib g' g q p file source' source udts' udts where
  reordered := h.reordered.symm
  left := h.right
  right := h.left
  ready := h.ready'
  ready' := h.ready

theorem items : source.Reorders source' := by
  obtain ⟨source₁, hl, hitems⟩ := (h.reordered file).1 source h.ready.loaded
  obtain rfl : source' = source₁ := Except.ok.inj (h.ready'.loaded.symm.trans hl)
  exact hitems

theorem mem_active : file ∈ p.active := List.mem_of_getLast? h.ready.active

/-- The file has declared nothing yet. -/
theorem fresh : (file, b) ∉ g := fun hb => by
  have hnone := h.left.ofFile_eq_nil (h.left.pending.unverified file h.mem_active)
  have hm := Ledger.mem_ofFile (l := ⟨g, []⟩) |>.mpr hb
  rw [hnone] at hm
  cases hm

/-- The same types are active. -/
theorem shapes : SameShapes (p.session file udts).memory.udts (q.session file udts').memory.udts := by
  have hmem : ∀ u, u ∈ udts' ↔ u ∈ udts := by
    intro u
    rw [h.left.mem_udts_iff h.ready, h.right.mem_udts_iff h.ready']
    constructor
    · rintro ⟨o, ho, hu⟩
      exact ⟨o, h.reordered.symm.leads ho, h.reordered.symm.defines hu⟩
    · rintro ⟨o, ho, hu⟩
      exact ⟨o, h.reordered.leads ho, h.reordered.defines hu⟩
  have hnodup : ((p.session file udts).memory.udts.map (·.id)).Nodup :=
    (h.left.toBooked.start h.ready).nodup
  have hnodup' : ((q.session file udts').memory.udts.map (·.id)).Nodup :=
    (h.right.toBooked.start h.ready').nodup
  have hudts : (p.session file udts).memory.udts = udts.reverse := udts_storageWith h.left.quiet.udts
  have hudts' : (q.session file udts').memory.udts = udts'.reverse := udts_storageWith h.right.quiet.udts
  refine .of_perm ?_ hnodup
  refine (List.perm_ext_iff_of_nodup (hnodup'.of_map _) (hnodup.of_map _)).mpr fun u => ?_
  rw [hudts, hudts', List.mem_reverse, List.mem_reverse]
  exact hmem u

section Grown

variable {bs bs' : List Binding} {s t : Session}

omit h in
/-- The globals of a file are added behind those of the others. -/
theorem mem_globals_iff : (f, b) ∈ g ++ bs.reverse.map (file, ·) ↔ (f, b) ∈ g ∨ f = file ∧ b ∈ bs := by
  simp [and_comm, eq_comm]

omit h in
theorem outer (hs : Check.Grown bs (p.session file udts) s) : s.outer = p.importsOf file :=
  hs.outer.trans (importsOf_entered file)

/-- In view are the declarations of the file so far and what its imports export. -/
theorem inView_iff (hs : Check.Grown bs (p.session file udts) s) :
    s.InView ⟨g ++ bs.reverse.map (file, ·), []⟩ f b ↔
      f = file ∧ b ∈ bs ∨ (f, b) ∈ g ∧ f ∈ p.importsOf file ∧ b.symbol.exported = true := by
  have hfile : s.file = file := hs.file
  unfold Session.InView
  rw [outer hs, hfile, mem_globals_iff]
  constructor
  · rintro ⟨hb | hb, hf⟩
    · refine .inr ⟨hb, hf.resolve_left ?_⟩
      rintro rfl
      exact h.fresh hb
    · exact .inl hb
  · rintro (⟨rfl, hb⟩ | ⟨hb, hf⟩)
    · exact ⟨.inr ⟨rfl, hb⟩, .inl rfl⟩
    · exact ⟨.inl hb, .inr hf⟩

theorem coherent (hs : Check.Grown bs (p.session file udts) s) :
    Coherent ⟨g ++ bs.reverse.map (file, ·), []⟩ s :=
  (h.left.toBooked.start h.ready).grown hs rfl

/-- The types of the file and of all that its imports lead to are active once they are declared. -/
theorem active_of_udts (hs : Check.Grown bs (p.session file udts) s)
    (hu : s.memory.udts = source.udts (p.session file udts).memory.udts) :
    lib.Active file s.memory.udts := by
  refine ⟨(h.coherent hs).nodup, fun u => ?_⟩
  have hudts : (p.session file udts).memory.udts = udts.reverse := udts_storageWith h.left.quiet.udts
  rw [hu, hudts]
  exact h.left.mem_udts_of_ready h.ready u

/-- The types of the file occupy nothing. -/
theorem dataSegment_of_types (hs : Check.Grown bs (p.session file udts) s) {us : List Udt}
    (hm : Made us (source.types.map .typeDef) bs) : s.memory.dataSegment = p.memory.dataSegment := by
  have hnone : (bs.reverse.map (file, ·)).filterMap (·.2.element?) = [] := by
    refine List.filterMap_eq_nil_iff.mpr fun fb hfb => ?_
    obtain ⟨b, hb, rfl⟩ := List.mem_map.mp hfb
    have hmem := List.mem_reverse.mp hb
    have hmatch := (h.coherent hs).sound b (.inr ⟨file, by simp [hmem]⟩)
    rw [Option.eq_none_iff_forall_ne_some]
    intro e he
    exact absurd (hm.isUdt_of_types hmem) (by simp [hmatch.isUdt_of_element? he])
  rw [(h.coherent hs).dataSegment, List.filterMap_append, hnone, List.append_nil, ← h.left.dataSegment]

theorem isSome_table? (hs : Check.Grown bs (p.session file udts) s)
    (hb : s.InView ⟨g ++ bs.reverse.map (file, ·), []⟩ f b) : (s.names.table? f).isSome := by
  by_cases hf : f = file
  · have ht := (h.coherent hs).table
    rwa [hs.file, ← hf] at ht
  · rw [hs.table?_of_ne hf]
    obtain ⟨hown, _⟩ | ⟨hmem, _⟩ := (h.inView_iff hs).mp hb
    · exact absurd hown hf
    · obtain ⟨source, us, hp⟩ := h.left.portrait f (h.left.owners f b hmem)
      have ht : ((p.names.addFile file).table? f).isSome := by
        rw [Registry.table?_addFile_of_ne hf]
        exact hp.table
      exact ht

/-- What is in view in one project has a counterpart in view in the other. -/
theorem there (hs : Check.Grown bs (p.session file udts) s) (ht : Check.Grown bs' (q.session file udts') t)
    (hown : ∀ b ∈ bs, ∃ b' ∈ bs', b.Alike b')
    (hb : s.InView ⟨g ++ bs.reverse.map (file, ·), []⟩ f b) :
    ∃ b', t.InView ⟨g' ++ bs'.reverse.map (file, ·), []⟩ f b' ∧ b.Alike b' := by
  obtain ⟨hfile, hmem⟩ | ⟨hmem, hf, hexported⟩ := (h.inView_iff hs).mp hb
  · obtain ⟨b', hb', ha⟩ := hown b hmem
    exact ⟨b', (h.symm.inView_iff ht).mpr (.inl ⟨hfile, hb'⟩), ha⟩
  · have himports : lib'.Imports file f := by
      obtain ⟨i, hi, rfl⟩ := h.left.outer file source h.ready.loaded f hf
      exact h.reordered.imports ⟨source, h.ready.loaded, i, hi, rfl⟩
    obtain ⟨source₁, hl, i, hi, rfl⟩ := himports
    obtain rfl : source' = source₁ := Except.ok.inj (h.ready'.loaded.symm.trans hl)
    obtain ⟨b', hb', ha⟩ := h.left.counterpart h.right h.reordered hmem (h.ready'.verified i hi)
    refine ⟨b', (h.symm.inView_iff ht).mpr (.inr ⟨hb', h.ready'.linked i hi, ?_⟩), ha⟩
    rw [ha.exported, hexported]

end Grown

end Paired

end Project

end StoragePlan
