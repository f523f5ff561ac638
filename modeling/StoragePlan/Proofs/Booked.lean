import StoragePlan.Proofs.Calls
import StoragePlan.Proofs.ImportedTypes
import StoragePlan.Proofs.Invariants

/-!
The ledger of a project. While a compilation goes well, names and storage of the project show one
ledger of globals, all made by verified files; so the check of the next file begins in a coherent
session.
-/

namespace StoragePlan

namespace Project

/-- The globals `g`, oldest first and each with its file, are what names and storage of the project
show; they were declared by the verified files, and only the active files are not verified yet. -/
structure Booked (lib : Library) (g : List (String × Binding)) (p : Project) : Prop where
  quiet : Quiet p
  pending : Pending p
  symbols : ∀ file t, p.names.table? file = some t →
    t.symbols = (Ledger.ofFile ⟨g, []⟩ file).map (·.symbol)
  dataSegment : p.memory.dataSegment = g.filterMap (·.2.element?)
  ordered : p.names.types.Ordered
  sound : ∀ file b, (file, b) ∈ g → b.Matches p.names.types
  distinct : p.memory.Distinct
  owners : ∀ file b, (file, b) ∈ g → (p.verified? file).isSome
  types : ∀ file v, p.verified? file = some v →
    v.udts = (Ledger.ofFile ⟨g, []⟩ file).filterMap (·.udt?)
  tables : ∀ file, (p.names.table? file).isSome → (p.verified? file).isSome ∨ file ∈ p.active
  outer : ∀ file source, load lib file = .ok source → ∀ o ∈ p.importsOf file,
    ∃ i ∈ source.imports, i.file = o

theorem booked_empty (lib : Library) : Booked lib [] empty where
  quiet := quiet_empty
  pending := ⟨List.nodup_nil, fun file hf => by cases hf⟩
  symbols file t ht := by cases ht
  dataSegment := rfl
  ordered h base dims hg := by cases hg
  sound file b hb := by cases hb
  distinct := List.nodup_nil
  owners file b hb := by cases hb
  types file v hv := by cases hv
  tables file ht := by cases ht
  outer file source _ o ho := by cases ho

namespace Booked

variable {lib : Library} {g : List (String × Binding)} {p : Project} {file : String}
  {source : SourceFile} {udts : List Udt}

/-- A file that is not verified has no globals. -/
theorem ofFile_eq_nil (h : Booked lib g p) (hv : p.verified? file = none) :
    Ledger.ofFile ⟨g, []⟩ file = [] := by
  rw [List.eq_nil_iff_forall_not_mem]
  intro b hb
  have hs := h.owners file b (Ledger.mem_ofFile.mp hb)
  simp [hv] at hs

theorem entered (h : Booked lib g p) (hv : p.verified? file = none) (ha : file ∉ p.active) :
    Booked lib g (p.entered file) := by
  have htypes : (p.entered file).names.types = p.names.types := Registry.types_addFile p.names file
  have hstep : Advance lib p (p.entered file) := .enter hv ha
  refine { h with
    quiet := h.quiet.entered
    pending := h.pending.advance hstep
    symbols := ?symbols
    ordered := htypes ▸ h.ordered
    sound := fun f b hb => htypes ▸ h.sound f b hb
    tables := ?tables
    outer := ?outer }
  case symbols =>
    intro f t ht
    rcases Registry.table?_of_addFile ht with ht | ⟨rfl, rfl⟩
    · exact h.symbols f t ht
    · rw [h.ofFile_eq_nil hv]
      rfl
  case tables =>
    intro f ht
    obtain ⟨t, ht⟩ := Option.isSome_iff_exists.mp ht
    rcases Registry.table?_of_addFile ht with ht | ⟨rfl, _⟩
    · rcases h.tables f (by simp [ht]) with hf | hf
      · exact .inl hf
      · exact .inr (List.mem_append_left _ hf)
    · exact .inr (by simp [Project.entered])
  case outer =>
    intro f source hl o ho
    rw [importsOf_entered] at ho
    exact h.outer f source hl o ho

/-- An import changes no symbol of any file. -/
theorem table?_linked {f o : String} {t : SymbolTable}
    (ht : (p.linked file o).names.table? f = some t) :
    ∃ t', p.names.table? f = some t' ∧ t.symbols = t'.symbols := by
  simp only [Project.linked, Registry.addOuter] at ht
  by_cases hfile : f = file
  · subst hfile
    rw [Registry.table?_onTable (SymbolTable.file_addOuter o)] at ht
    obtain ⟨t', ht', rfl⟩ := Option.map_eq_some_iff.mp ht
    exact ⟨t', ht', t'.symbols_addOuter o⟩
  · rw [Registry.table?_onTable_of_ne (SymbolTable.file_addOuter o) hfile] at ht
    exact ⟨t, ht, rfl⟩

theorem linked (h : Booked lib g p) {i : Import} (hl : load lib file = .ok source)
    (hi : i ∈ source.imports) : Booked lib g (p.linked file i.file) := by
  refine { h with
    quiet := h.quiet.linked i.file
    pending := h.pending.of_eq rfl rfl
    symbols := ?symbols
    tables := ?tables
    outer := ?outer }
  case symbols =>
    intro f t ht
    obtain ⟨t', ht', hs⟩ := table?_linked ht
    rw [hs]
    exact h.symbols f t' ht'
  case tables =>
    intro f ht
    obtain ⟨t, ht⟩ := Option.isSome_iff_exists.mp ht
    obtain ⟨t', ht', _⟩ := table?_linked ht
    exact h.tables f (by simp [ht'])
  case outer =>
    intro f source' hl' o ho
    rw [importsOf_linked] at ho
    split at ho
    · next hc =>
      obtain rfl := hc.1
      rcases List.mem_append.mp ho with ho | ho
      · exact h.outer f source' hl' o ho
      · rw [hl] at hl'
        cases hl'
        exact ⟨i, hi, (List.mem_singleton.mp ho).symm⟩
    · exact h.outer f source' hl' o ho

/-- A type that a file in view of the last active file has declared is brought to its check. -/
theorem types_start (h : Booked lib g p) (hr : Ready lib file source udts p) {f : String}
    {b : Binding} {u : Udt} (hb : (f, b) ∈ g) (hf : f = file ∨ f ∈ p.importsOf file)
    (hu : b.udt? = some u) : u ∈ udts := by
  have hactive : file ∈ p.active := List.mem_of_getLast? hr.active
  have hm : b ∈ Ledger.ofFile ⟨g, []⟩ f := Ledger.mem_ofFile.mpr hb
  rcases hf with rfl | hf
  · rw [h.ofFile_eq_nil (h.pending.unverified f hactive)] at hm
    cases hm
  · obtain ⟨visited, hg, _, himports⟩ := importedTypes_gathered gathered_nil hr.types
    obtain ⟨i, hi, rfl⟩ := h.outer file source hr.loaded f hf
    have hv := hr.verified i hi
    obtain ⟨v, hv'⟩ := Option.isSome_iff_exists.mp hv
    have huv : u ∈ v.udts := by
      rw [h.types _ v hv']
      exact List.mem_filterMap.mpr ⟨b, hm, hu⟩
    exact (hg.types u).mpr ⟨i.file, himports i hi hv, v, hv', huv⟩

/-- The check of the last active file begins in a coherent session. -/
theorem start (h : Booked lib g p) (hr : Ready lib file source udts p) :
    Coherent ⟨g, []⟩ (.start file (p.storageWith udts) p.names) := by
  have hactive : file ∈ p.active := List.mem_of_getLast? hr.active
  have hmemory : p.storageWith udts = p.memory.openScope.grow false [] udts.reverse :=
    Tracker.foldl_addUdt false udts _
  have htypes : (p.names.addFile file).types = p.names.types := Registry.types_addFile p.names file
  have hdescribes : Ledger.Describes ⟨g, []⟩ (.start file (p.storageWith udts) p.names) := by
    constructor
    case symbols =>
      intro f t ht
      rcases Registry.table?_of_addFile ht with ht | ⟨rfl, rfl⟩
      · exact h.symbols f t ht
      · rw [h.ofFile_eq_nil (h.pending.unverified f hactive)]
        rfl
    case scopes =>
      intro t ht
      exact h.quiet.entered.tables t (Registry.table?_mem ht)
    case dataSegment =>
      simp only [Session.start, hmemory, Tracker.grow, List.reverse_nil, List.append_nil]
      exact h.dataSegment
    case stack =>
      simp only [Session.start, hmemory]
      exact h.quiet.stack
  constructor
  case toDescribes => exact hdescribes
  case table => simp [Session.start, Registry.table?_addFile]
  case ordered =>
    simp only [Session.start, htypes]
    exact h.ordered
  case sound =>
    rintro b (hb | ⟨f, hb⟩)
    · cases hb
    · simp only [Session.start, htypes]
      exact h.sound f b hb
  case distinct =>
    have hd := h.distinct
    unfold Tracker.Distinct at hd ⊢
    simpa [Session.start, hmemory, Tracker.grow, Tracker.openScope] using hd
  case nodup =>
    obtain ⟨_, hg, _⟩ := importedTypes_gathered gathered_nil hr.types
    simp only [Session.start, hmemory, Tracker.udts_grow, Tracker.openScope,
      h.quiet.udts, List.append_nil, List.map_reverse]
    exact (List.reverse_perm _).nodup_iff.mpr hg.nodup
  case localTypes =>
    intro b hb
    cases hb
  case globalTypes =>
    intro f b hb hf u hu
    -- What is in view of the file in the session is what it imports in the project.
    have hview : f = file ∨ f ∈ p.importsOf file := by
      rw [← importsOf_entered]
      exact hf
    have hmem := h.types_start hr hb hview hu
    simp [Session.start, hmemory, hmem]

/-- The types of the verified files are in the ledger when the last active file joins them. -/
theorem types_finish (h : Booked lib g p) (hnone : p.verified? file = none) {bs : List Binding}
    {w : VerifiedFile} (hfile : w.file = file) (hudts : w.udts = (bs.filterMap (·.udt?)).reverse)
    {f : String} {v : VerifiedFile}
    (hv : (p.verified? f).or (if f = w.file then some w else none) = some v) :
    v.udts = (Ledger.ofFile ⟨g ++ bs.reverse.map (file, ·), []⟩ f).filterMap (·.udt?) := by
  rw [Option.or_eq_some_iff] at hv
  rcases hv with hv | ⟨_, hv⟩
  · have hf : f ≠ file := by
      rintro rfl
      simp [hnone] at hv
    rw [h.types f v hv, Ledger.ofFile_append_of_ne hf]
  · split at hv
    · next hf =>
      cases hv
      obtain rfl : f = file := hf.trans hfile
      rw [Ledger.ofFile_append_self, h.ofFile_eq_nil hnone, List.nil_append, List.filterMap_reverse, hudts]
    · cases hv

/-- A file that is right adds its declarations to the ledger. -/
theorem finish_grown (h : Booked lib g p) (hr : Ready lib file source udts p) {s : Session}
    (hrun : Check.file source (.start file (p.storageWith udts) p.names) = .ok () s) {bs : List Binding}
    (hg : Check.Grown bs (.start file (p.storageWith udts) p.names) (Check.reframed [] s)) :
    Booked lib (g ++ bs.reverse.map (file, ·))
      ((p.settled (p.checked file source udts)).left.accepted ⟨file, s.frames, s.types, s.udts⟩) := by
  have hcheck : p.checked file source udts = ⟨.ok ⟨file, s.frames, s.types, s.udts⟩, s.memory,
    s.names⟩ := verify_of_ok hrun
  have hstep : Advance lib p
      ((p.settled (p.checked file source udts)).left.accepted ⟨file, s.frames, s.types, s.udts⟩) :=
    .finish hr (by rw [hcheck])
  have hnone := h.pending.unverified file (List.mem_of_getLast? hr.active)
  have hc : Coherent ⟨g ++ bs.reverse.map (file, ·), []⟩ s :=
    ((h.start hr).grown hg rfl).congr rfl rfl rfl
  constructor
  case quiet => exact h.quiet.step (.inl hstep)
  case pending => exact h.pending.advance hstep
  case symbols =>
    intro f t ht
    rw [hcheck] at ht
    exact hc.symbols f t ht
  case dataSegment =>
    rw [hcheck]
    exact (Tracker.dataSegment_closeScope _).trans hc.dataSegment
  case ordered =>
    rw [hcheck]
    exact hc.ordered
  case sound =>
    intro f b hb
    rw [hcheck]
    exact hc.sound b (.inr ⟨f, hb⟩)
  case distinct =>
    have hd := hc.distinct
    unfold Tracker.Distinct at hd ⊢
    rw [hcheck]
    exact (Tracker.dataSegment_closeScope _).symm ▸ hd
  case owners =>
    intro f b hb
    rcases List.mem_append.mp hb with hb | hb
    · exact hstep.later.isSome_verified? (h.owners f b hb)
    · obtain ⟨b', _, he⟩ := List.mem_map.mp hb
      cases he
      exact isSome_verified?_accepted rfl
  case types =>
    intro f w hw
    have hudts : s.udts = (bs.filterMap (·.udt?)).reverse := by
      have hu := hg.udts
      simpa [Session.start, Check.reframed] using hu
    rw [verified?_accepted] at hw
    exact h.types_finish hnone rfl hudts hw
  case tables =>
    intro f ht
    by_cases hf : f = file
    · exact .inl (isSome_verified?_accepted hf.symm)
    · rw [hcheck] at ht
      have hother : s.names.table? f = (p.names.addFile file).table? f := hg.table?_of_ne hf
      have hs : (s.names.table? f).isSome := ht
      rw [hother, Registry.table?_addFile_of_ne hf] at hs
      refine (h.tables f hs).imp hstep.later.isSome_verified? fun ha => ?_
      obtain ⟨before, hactive⟩ := List.getLast?_eq_some_iff.mp hr.active
      rw [hactive] at ha
      simpa [Project.accepted, left, Project.settled, hactive, hf] using ha
  case outer =>
    intro f source' hl' o ho
    have ho' : o ∈ (p.settled (p.checked file source udts)).importsOf f := ho
    rw [importsOf_settled] at ho'
    exact h.outer f source' hl' o ho'

theorem finish (h : Booked lib g p) (hr : Ready lib file source udts p) {v : VerifiedFile}
    (hv : (p.checked file source udts).result = .ok v) :
    ∃ bs : List Binding, Booked lib (g ++ bs.reverse.map (file, ·))
      ((p.settled (p.checked file source udts)).left.accepted v) := by
  obtain ⟨s, hrun, rfl⟩ := verify_result_ok hv
  obtain ⟨bs, hg⟩ := (Check.file_ends source rfl).ok hrun
  exact ⟨bs, h.finish_grown hr hrun hg⟩

theorem advances {p' : Project} (h : Booked lib g p) (hs : Advances lib p p') :
    ∃ g', Booked lib g' p' := by
  induction hs with
  | refl => exact ⟨g, h⟩
  | tail _ hs ih =>
    obtain ⟨g, h⟩ := ih
    cases hs with
    | enter hv ha => exact ⟨g, h.entered hv ha⟩
    | link ha hl hi hv => exact ⟨g, h.linked hl hi⟩
    | finish hr hv =>
      obtain ⟨bs, h'⟩ := h.finish hr hv
      exact ⟨_, h'⟩

end Booked

end Project

end StoragePlan
