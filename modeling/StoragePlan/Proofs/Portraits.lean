import StoragePlan.Proofs.Making
import StoragePlan.Proofs.TypeClosure

/-!
Verified files are as their sources say. Of every verified file the project knows what the items of its
source make, the types that were active during its check are those of all files that its imports lead to
in the library, and its links are its imports. So of the order in which files were compiled, and of the
order of the items in each, nothing is left but the order of what is stored.
-/

namespace StoragePlan

open Relation

/-! ### What a library says -/

namespace Library

/-- The file can be read and defines this type. -/
def Defines (lib : Library) (file : String) (u : Udt) : Prop :=
  ∃ source, Project.load lib file = .ok source ∧ ∃ d ∈ source.types, d.udt = u

/-- The imports of the file lead to two files that define a type of one name. -/
def Clash (lib : Library) (file : String) : Prop :=
  ∃ f f' u u', TransGen lib.Imports file f ∧ TransGen lib.Imports file f' ∧ f ≠ f' ∧
    lib.Defines f u ∧ lib.Defines f' u' ∧ u.id = u'.id

/-- The types of the file and of all files that its imports lead to, under different names. -/
structure Active (lib : Library) (file : String) (us : List Udt) : Prop where
  nodup : (us.map (·.id)).Nodup
  mem : ∀ u, u ∈ us ↔ ∃ o, ReflTransGen lib.Imports file o ∧ lib.Defines o u

/-- The types are the same in every list, up to their order. -/
theorem Active.sameShapes {lib lib' : Library} {file : String} {us us' : List Udt}
    (h : lib.Active file us) (h' : lib'.Active file us') (hu : ∀ u, u ∈ us' ↔ u ∈ us) :
    SameShapes us us' :=
  .of_perm ((List.perm_ext_iff_of_nodup (h'.nodup.of_map _) (h.nodup.of_map _)).mpr hu) h.nodup

end Library

/-- Along a path that stays where one relation is the other. -/
theorem reflTransGen_mono_on {α : Type} {r r' : α → α → Prop} {P : α → Prop} {a b : α}
    (h : ReflTransGen r a b) (ha : P a) (hr : ∀ x y, P x → r x y → r' x y ∧ P y) :
    ReflTransGen r' a b ∧ P b := by
  induction h with
  | refl => exact ⟨.refl, ha⟩
  | tail _ hstep ih =>
    obtain ⟨hstep', hb⟩ := hr _ _ ih.2 hstep
    exact ⟨ih.1.tail hstep', hb⟩

namespace Project

variable {lib : Library} {g : List (String × Binding)} {p p' : Project} {file f o : String}
  {source : SourceFile} {udts us : List Udt} {bs : List Binding}

/-- The project knows a file as its source says. -/
structure Portrait (lib : Library) (g : List (String × Binding)) (p : Project) (file : String)
    (source : SourceFile) (us : List Udt) : Prop where
  loaded : load lib file = .ok source
  active : lib.Active file us
  made : Made us source.items (Ledger.ofFile ⟨g, []⟩ file)
  linked : ∀ i ∈ source.imports, i.file ∈ p.importsOf file
  table : (p.names.table? file).isSome

/-- The project knows every verified file as its source says. -/
structure Portrayed (lib : Library) (g : List (String × Binding)) (p : Project) : Prop
    extends Booked lib g p where
  sorted : Sorted p
  portrait : ∀ f, (p.verified? f).isSome → ∃ source us, Portrait lib g p f source us

theorem portrayed_empty (lib : Library) : Portrayed lib [] empty where
  toBooked := booked_empty lib
  sorted := sorted_empty
  portrait f h := by cases h

theorem Portrait.later (h : Portrait lib g p f source us) (hl : Later p p') {g' : List (String × Binding)}
    (hg : Ledger.ofFile ⟨g', []⟩ f = Ledger.ofFile ⟨g, []⟩ f) : Portrait lib g' p' f source us where
  loaded := h.loaded
  active := h.active
  made := hg ▸ h.made
  linked i hi := (hl.outer f).subset (h.linked i hi)
  table := hl.tables f h.table

namespace Portrayed

/-! ### What can be read off the sources -/

/-- A verified file has the types that its source defines. -/
theorem mem_typesOf_iff (h : Portrayed lib g p) (hf : (p.verified? f).isSome) (u : Udt) :
    u ∈ p.typesOf f ↔ lib.Defines f u := by
  obtain ⟨source, us, hp⟩ := h.portrait f hf
  obtain ⟨v, hv⟩ := Option.isSome_iff_exists.mp hf
  rw [typesOf_of_verified hv, h.types f v hv, hp.made.mem_udts_iff]
  constructor
  · exact fun hd => ⟨source, hp.loaded, hd⟩
  · rintro ⟨source', hl, hd⟩
    obtain rfl : source = source' := Except.ok.inj (hp.loaded.symm.trans hl)
    exact hd

/-- A verified file is linked to its imports. -/
theorem mem_importsOf_iff (h : Portrayed lib g p) (hf : (p.verified? f).isSome) (o : String) :
    o ∈ p.importsOf f ↔ lib.Imports f o := by
  obtain ⟨source, us, hp⟩ := h.portrait f hf
  constructor
  · exact fun ho => ⟨source, hp.loaded, h.outer f source hp.loaded o ho⟩
  · rintro ⟨source', hl, i, hi, rfl⟩
    obtain rfl : source = source' := Except.ok.inj (hp.loaded.symm.trans hl)
    exact hp.linked i hi

theorem isSome_of_importsOf (h : Portrayed lib g p) (ho : o ∈ p.importsOf f) :
    (p.verified? o).isSome :=
  mem_order.mp (h.sorted.arranged.linked f o ho)

/-- What a verified file leads to is verified. -/
theorem isSome_of_imports (h : Portrayed lib g p) (hf : (p.verified? f).isSome)
    (ho : ReflTransGen lib.Imports f o) : (p.verified? o).isSome :=
  (reflTransGen_mono_on (P := fun f => (p.verified? f).isSome) ho hf fun _ _ hf ho =>
    ⟨ho, h.isSome_of_importsOf ((h.mem_importsOf_iff hf _).mpr ho)⟩).2

/-- From verified files the links lead where the imports lead. -/
theorem leadTo_iff (h : Portrayed lib g p) {is : List Import}
    (his : ∀ i ∈ is, (p.verified? i.file).isSome) :
    p.LeadTo is o ↔ ∃ i ∈ is, ReflTransGen lib.Imports i.file o := by
  refine exists_congr fun i => and_congr_right fun hi => ⟨fun hr => ?_, fun hr => ?_⟩
  · refine (reflTransGen_mono_on (P := fun f => (p.verified? f).isSome) hr (his i hi) ?_).1
    exact fun f o hf ho => ⟨(h.mem_importsOf_iff hf o).mp ho, h.isSome_of_importsOf ho⟩
  · refine (reflTransGen_mono_on (P := fun f => (p.verified? f).isSome) hr (his i hi) ?_).1
    intro f o hf ho
    have hlink := (h.mem_importsOf_iff hf o).mpr ho
    exact ⟨hlink, h.isSome_of_importsOf hlink⟩

/-- From the imports of a file the links lead where its imports lead. -/
theorem leadTo_imports_iff (h : Portrayed lib g p) (hl : load lib file = .ok source)
    (hv : ∀ i ∈ source.imports, (p.verified? i.file).isSome) :
    p.LeadTo source.imports o ↔ TransGen lib.Imports file o := by
  rw [h.leadTo_iff hv, TransGen.head'_iff]
  constructor
  · rintro ⟨i, hi, hpath⟩
    exact ⟨i.file, ⟨source, hl, i, hi, rfl⟩, hpath⟩
  · rintro ⟨_, ⟨source', hl', i, hi, rfl⟩, hpath⟩
    obtain rfl : source = source' := Except.ok.inj (hl.symm.trans hl')
    exact ⟨i, hi, hpath⟩

theorem isSome_of_leadTo (h : Portrayed lib g p) {is : List Import}
    (hv : ∀ i ∈ is, (p.verified? i.file).isSome) (ho : p.LeadTo is o) : (p.verified? o).isSome := by
  obtain ⟨i, hi, hpath⟩ := (h.leadTo_iff hv).mp ho
  exact h.isSome_of_imports (hv i hi) hpath

/-! ### The types of the imports -/

section Types

variable (h : Portrayed lib g p) (hv : ∀ i ∈ source.imports, (p.verified? i.file).isSome)

include h hv

/-- The search for the types of the imports. It answers the types of all files that they lead to, and
fails where two of them have a type of one name. -/
theorem importedTypes_outcome :
    (∀ udts, p.importedTypes file [] [] source.imports = .ok udts →
      ∃ found, Searched p (p.LeadTo source.imports) [] found udts ∧ (udts.map (·.id)).Nodup ∧
        ∀ o, o ∈ found ↔ p.LeadTo source.imports o) ∧
    ∀ e, p.importedTypes file [] [] source.imports = .error e →
      ∃ id, p.Clash (p.LeadTo source.imports) id := by
  obtain ⟨hok, herror⟩ := importedTypes_searched file h.sorted
    (fun _ (hf : p.LeadTo source.imports _) => hf.closed) (fun i hi => ⟨i, hi, .refl⟩) gathered_nil
    ⟨List.nodup_nil, rfl, by simp⟩
  constructor
  · intro udts hu
    obtain ⟨found, hs, hg, -, hfound⟩ := hok udts hu
    exact ⟨found, hs, hg.nodup, fun o => ⟨fun ho => hs.within o (.inl ho),
      fun ho => hg.complete h.sorted.arranged (fun i hi => hfound i hi (hv i hi)) ho⟩⟩
  · intro e he
    obtain ⟨_, _, id, hclash, _⟩ := herror e he
    exact ⟨id, hclash⟩

variable (hl : load lib file = .ok source)

include hl

/-- Two files that the imports lead to have a type of one name, if the sources say so. -/
theorem clash_iff : (∃ id, p.Clash (p.LeadTo source.imports) id) ↔ lib.Clash file := by
  have htypes : ∀ {f id}, p.LeadTo source.imports f →
      (id ∈ (p.typesOf f).map (·.id) ↔ ∃ u, lib.Defines f u ∧ u.id = id) := by
    intro f id hf
    rw [List.mem_map]
    exact exists_congr fun u => and_congr_left fun _ =>
      h.mem_typesOf_iff (h.isSome_of_leadTo hv hf) u
  have hlead := fun o => h.leadTo_imports_iff hl hv (o := o)
  constructor
  · rintro ⟨id, f, f', hf, hf', hne, hid, hid'⟩
    obtain ⟨u, hu, rfl⟩ := (htypes hf).mp hid
    obtain ⟨u', hu', heq⟩ := (htypes hf').mp hid'
    exact ⟨f, f', u, u', (hlead f).mp hf, (hlead f').mp hf', hne, hu, hu', heq.symm⟩
  · rintro ⟨f, f', u, u', hf, hf', hne, hu, hu', heq⟩
    have hf := (hlead f).mpr hf
    have hf' := (hlead f').mpr hf'
    exact ⟨u.id, f, f', hf, hf', hne, (htypes hf).mpr ⟨u, hu, rfl⟩, (htypes hf').mpr ⟨u', hu', heq.symm⟩⟩

/-- Whether the types of the imports can be active together depends on the sources only. -/
theorem importedTypes_ok_iff :
    (∃ udts, p.importedTypes file [] [] source.imports = .ok udts) ↔ ¬ lib.Clash file := by
  obtain ⟨hok, herror⟩ := h.importedTypes_outcome hv
  rw [← h.clash_iff hv hl]
  constructor
  · rintro ⟨udts, hu⟩ ⟨id, hclash⟩
    obtain ⟨found, hs, hn, hfound⟩ := hok udts hu
    exact hs.no_clash hn (fun f => (hfound f).mpr) id hclash
  · intro hnone
    cases hr : p.importedTypes file [] [] source.imports with
    | ok udts => exact ⟨udts, rfl⟩
    | error e => exact absurd (herror e hr) hnone

end Types

/-- When the check of a file begins, the types of all files that its imports lead to are at hand. -/
theorem mem_udts_iff (h : Portrayed lib g p) (hr : Ready lib file source udts p) (u : Udt) :
    u ∈ udts ↔ ∃ o, TransGen lib.Imports file o ∧ lib.Defines o u := by
  obtain ⟨found, hs, -, hfound⟩ := (h.importedTypes_outcome hr.verified).1 udts hr.types
  have htypes : ∀ o, p.LeadTo source.imports o → (u ∈ p.typesOf o ↔ lib.Defines o u) :=
    fun o ho => h.mem_typesOf_iff (h.isSome_of_leadTo hr.verified ho) u
  rw [hs.types, List.mem_flatMap]
  refine exists_congr fun o => ?_
  rw [hfound o, ← h.leadTo_imports_iff hr.loaded hr.verified]
  exact and_congr_right (htypes o)

/-- Once the types of a file are declared, those of the file and of all files that its imports lead to
are at hand. -/
theorem mem_udts_of_ready (h : Portrayed lib g p) (hr : Ready lib file source udts p) (u : Udt) :
    u ∈ source.udts udts.reverse ↔ ∃ o, ReflTransGen lib.Imports file o ∧ lib.Defines o u := by
  rw [SourceFile.udts, List.mem_append, List.mem_reverse, List.mem_map, List.mem_reverse,
    h.mem_udts_iff hr]
  constructor
  · rintro (hd | ⟨o, ho, hu⟩)
    · exact ⟨file, .refl, source, hr.loaded, hd⟩
    · exact ⟨o, ho.to_reflTransGen, hu⟩
  · rintro ⟨o, ho, hu⟩
    rcases reflTransGen_iff_eq_or_transGen.mp ho with rfl | ho
    · obtain ⟨source', hl, hd⟩ := hu
      obtain rfl : source = source' := Except.ok.inj (hr.loaded.symm.trans hl)
      exact .inl hd
    · exact .inr ⟨o, ho, hu⟩

/-- The types that are active at the end of the check of a file. -/
theorem active_of_ready (h : Portrayed lib g p) (hr : Ready lib file source udts p) {s : Session}
    (hrun : Check.file source (.start file (p.storageWith udts) p.names) = .ok () s) :
    lib.Active file (source.udts udts.reverse) := by
  have hbegins := h.quiet.begins file udts
  have hc := h.toBooked.start hr
  obtain ⟨_, s₁, htypes, -⟩ := bind_eq_ok hrun
  have hn : (udts.reverse.map (·.id)).Nodup := hbegins.udts ▸ hc.nodup
  exact ⟨(Check.types_closed hbegins hc.table hn htypes).1, h.mem_udts_of_ready hr⟩

/-- A file that is right becomes known as its source says. -/
theorem finish (h : Portrayed lib g p) (hr : Ready lib file source udts p) {v : VerifiedFile}
    (hv : (p.checked file source udts).result = .ok v) :
    ∃ g', Portrayed lib g' ((p.settled (p.checked file source udts)).left.accepted v) := by
  have hstep : Advance lib p ((p.settled (p.checked file source udts)).left.accepted v) :=
    .finish hr hv
  obtain ⟨s, hrun, rfl⟩ := verify_result_ok hv
  obtain ⟨bs, hg, hmade⟩ := Check.file_makes rfl hrun
  have hnone := h.pending.unverified file (List.mem_of_getLast? hr.active)
  have hudts : (p.storageWith udts).udts = udts.reverse := udts_storageWith h.quiet.udts
  have hbooked := h.toBooked.finish_grown hr hrun hg
  refine ⟨_, hbooked, h.sorted.step (.inl hstep), fun f hf => ?_⟩
  by_cases hne : f = file
  · subst hne
    refine ⟨source, _, hr.loaded, h.active_of_ready hr hrun, ?_, fun i hi => ?_, ?_⟩
    · rw [Ledger.ofFile_append_self, h.ofFile_eq_nil hnone, List.nil_append]
      exact (hudts ▸ hmade : Made (source.udts udts.reverse) source.items bs).reverse
    · exact (hstep.later.outer f).subset (hr.linked i hi)
    · have htable := ((h.toBooked.start hr).grown hg rfl).table
      have hcheck : p.checked f source udts = ⟨.ok ⟨f, s.frames, s.types, s.udts⟩, s.memory,
        s.names⟩ := verify_of_ok hrun
      rw [hg.file] at htable
      rw [hcheck]
      exact htable
  · rw [verified?_accepted, if_neg hne, Option.or_none] at hf
    obtain ⟨source', us, hp⟩ := h.portrait f hf
    exact ⟨source', us, hp.later hstep.later (Ledger.ofFile_append_of_ne hne)⟩

theorem advances (h : Portrayed lib g p) (hs : Advances lib p p') : ∃ g', Portrayed lib g' p' := by
  induction hs with
  | refl => exact ⟨g, h⟩
  | tail _ hs ih =>
    obtain ⟨g, h⟩ := ih
    have hsorted := h.sorted.step (.inl hs)
    have hl := hs.later
    cases hs with
    | enter hv ha =>
      refine ⟨g, h.toBooked.entered hv ha, hsorted, fun f hf => ?_⟩
      obtain ⟨source, us, hp⟩ := h.portrait f hf
      exact ⟨source, us, hp.later hl rfl⟩
    | link ha hload hi hv =>
      refine ⟨g, h.toBooked.linked hload hi, hsorted, fun f hf => ?_⟩
      obtain ⟨source, us, hp⟩ := h.portrait f hf
      exact ⟨source, us, hp.later hl rfl⟩
    | finish hr hv => exact h.finish hr hv

end Portrayed

end Project

end StoragePlan
