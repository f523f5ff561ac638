import StoragePlan.Proofs.Booked
import StoragePlan.Proofs.Reading
import StoragePlan.Proofs.SafeFiles

/-!
No program breaks a promise of the compiler. The types of every verified file are built on types of
the files that it leads to, so wherever the check of a file begins the active types are closed; the
trees that are read are sound; and so the check of a file on a new project can fail only through the
program.
-/

namespace StoragePlan

namespace Project

variable {lib : Library} {p p' : Project} {file : String} {source : SourceFile} {udts : List Udt}

/-! ### Types across files -/

/-- The files hold with a file all verified files that it imports. -/
def Downward (p : Project) (files : String → Prop) : Prop :=
  ∀ f, files f → ∀ o ∈ p.importsOf f, (p.verified? o).isSome → files o

/-- One of the files is verified and has a type of this name. -/
def Offers (p : Project) (files : String → Prop) (id : String) : Prop :=
  ∃ f v, files f ∧ p.verified? f = some v ∧ id ∈ v.udts.map (·.id)

/-- The fields of the types of a verified file are built on types of the files that it leads to. -/
def Grounded (p : Project) : Prop :=
  ∀ f v, p.verified? f = some v → ∀ files, files f → p.Downward files →
    ∀ u ∈ v.udts, ∀ m ∈ u.fields, (ValueType.ofId m.typeId).Based (p.Offers files)

theorem Downward.of_later {files : String → Prop} (h : p'.Downward files) (hl : Later p p') :
    p.Downward files := fun f hf o ho hv =>
  h f hf o ((hl.outer f).subset ho) (hl.isSome_verified? hv)

theorem Offers.later {files : String → Prop} {id : String} (h : p.Offers files id)
    (hl : Later p p') : p'.Offers files id := by
  obtain ⟨f, v, hf, hv, hid⟩ := h
  exact ⟨f, v, hf, hl.verified? hv, hid⟩

theorem grounded_empty : Grounded empty := fun f v hv => by cases hv

theorem Grounded.fields_later (h : Grounded p) (hl : Later p p') {f : String} {v : VerifiedFile}
    (hv : p.verified? f = some v) {files : String → Prop} (hf : files f) (hd : p'.Downward files) :
    ∀ u ∈ v.udts, ∀ m ∈ u.fields, (ValueType.ofId m.typeId).Based (p'.Offers files) :=
  fun u hu m hm => (h f v hv files hf (hd.of_later hl) u hu m hm).mono fun _ hid => hid.later hl

/-- Where no file is verified anew. -/
theorem Grounded.later (h : Grounded p) (hl : Later p p') (hv : p'.verified = p.verified) :
    Grounded p' := fun f v hfv _ hf hd =>
  h.fields_later hl (by rwa [verified?, ← hv]) hf hd

/-- The types that are collected belong to files that the pending ones lead to. -/
theorem collectTypes_offered {files : String → Prop} (hd : p.Downward files) {n : Nat}
    {pending visited visited' : List String} {collected collected' : List Udt}
    (hp : ∀ f ∈ pending, (p.verified? f).isSome → files f)
    (hc : ∀ u ∈ collected, p.Offers files u.id)
    (hr : collectTypes p n pending visited collected = .ok (visited', collected')) :
    ∀ u ∈ collected', p.Offers files u.id := by
  induction n generalizing pending visited collected with
  | zero =>
    cases pending <;> cases hr <;> exact hc
  | succ n ih =>
    cases pending with
    | nil =>
      cases hr
      exact hc
    | cons f pending =>
      rw [List.forall_mem_cons] at hp
      unfold collectTypes at hr
      split at hr
      · exact ih hp.2 hc hr
      · split at hr
        · exact ih hp.2 hc hr
        · next v hv =>
          split at hr
          · cases hr
          · next collected₁ ha =>
            have hf : files f := hp.1 (by simp [hv])
            obtain ⟨rfl, _⟩ := addTypes_eq_ok ha
            refine ih (fun o ho hov => ?_) (fun u hu => ?_) hr
            · rcases List.mem_append.mp ho with ho | ho
              · exact hd f hf o (List.mem_reverse.mp ho) hov
              · exact hp.2 o ho hov
            · rcases List.mem_append.mp hu with hu | hu
              · exact hc u hu
              · exact ⟨f, v, hf, hv, List.mem_map_of_mem hu⟩

theorem importedTypes_offered {files : String → Prop} (hd : p.Downward files)
    {visited : List String} {collected : List Udt} {is : List Import}
    (hi : ∀ i ∈ is, (p.verified? i.file).isSome → files i.file)
    (hc : ∀ u ∈ collected, p.Offers files u.id)
    (hr : p.importedTypes file visited collected is = .ok udts) :
    ∀ u ∈ udts, p.Offers files u.id := by
  induction is generalizing visited collected with
  | nil =>
    cases hr
    exact hc
  | cons i is ih =>
    rw [List.forall_mem_cons] at hi
    unfold importedTypes at hr
    split at hr
    · cases hr
    · next hcollect =>
      refine ih hi.2 ?_ hr
      exact collectTypes_offered hd (by simpa using hi.1) hc hcollect

/-! ### The check of one file -/

theorem udts_storageWith (h : p.memory.udts = []) : (p.storageWith udts).udts = udts.reverse := by
  rw [storageWith, Tracker.foldl_addUdt false, Tracker.udts_grow]
  simp [Tracker.openScope, h]

/-- The check of the last active file begins in a fit session. -/
theorem Booked.fit {g : List (String × Binding)} (hb : Booked lib g p) (hg : Grounded p)
    (hr : Ready lib file source udts p) :
    Check.Fit false (.start file (p.storageWith udts) p.names) where
  kept := ⟨⟨g, []⟩, hb.start hr, rfl⟩
  closed := by
    obtain ⟨visited, hgather, _, _⟩ := importedTypes_gathered gathered_nil hr.types
    have hudts : (p.storageWith udts).udts = udts.reverse := udts_storageWith hb.quiet.udts
    have hdown : p.Downward (· ∈ visited) := fun f hf o ho hv =>
      (hgather.closed f hf o ho hv).resolve_right (by simp)
    intro u hu m hm
    simp only [Session.start, hudts, List.mem_reverse] at hu
    obtain ⟨f, hf, v, hv, huv⟩ := (hgather.types u).mp hu
    refine (hg f v hv _ hf hdown u huv m hm).mono fun id hid => ?_
    obtain ⟨f', v', hf', hv', hid'⟩ := hid
    obtain ⟨u', hu', rfl⟩ := List.mem_map.mp hid'
    rw [Tracker.active_iff]
    simp only [Session.start, hudts, List.map_reverse, List.mem_reverse]
    exact List.mem_map_of_mem ((hgather.types u').mpr ⟨f', hf', v', hv', hu'⟩)
  inner := rfl

/-- A file that can be loaded is read from the tokens of its text. -/
theorem load_eq_ok (h : load lib file = .ok source) :
    ∃ text, SourceFile.parse file (scan text).tokens = .ok source := by
  unfold load at h
  split at h
  · cases h
  · next tokens ht =>
    unfold tokenize at ht
    split at ht
    · cases ht
    · next text _ =>
      split at ht
      · cases ht
      · next hs =>
        cases ht
        unfold Scanned.toExcept at hs
        split at hs
        · cases hs
          refine ⟨text, ?_⟩
          split at h
          · cases h
          · next hp => rw [hp, Except.ok.inj h]
        · cases hs

theorem load_sound (h : load lib file = .ok source) : ∀ i ∈ source.items, i.Sound := by
  obtain ⟨text, hp⟩ := load_eq_ok h
  exact (SourceFile.parse_sound (scan_sound text) hp).1

/-- A file whose types are built on its own and on those it imports keeps the types grounded. -/
theorem Grounded.accept (hg : Grounded p) (hr : Ready lib file source udts p) {v : VerifiedFile}
    (hv : (p.checked file source udts).result = .ok v)
    (hclosed : ∀ u ∈ v.udts, ∀ m ∈ u.fields, (ValueType.ofId m.typeId).Based fun id =>
      id ∈ v.udts.map (·.id) ∨ id ∈ udts.map (·.id)) :
    Grounded ((p.settled (p.checked file source udts)).left.accepted v) := by
  have hlater : Later p ((p.settled (p.checked file source udts)).left.accepted v) :=
    (later_settled.trans later_left).trans (later_accepted v)
  intro f w hw files hf hdown
  rw [verified?_accepted, Option.or_eq_some_iff] at hw
  rcases hw with hw | ⟨hnone, hw⟩
  · exact hg.fields_later hlater hw hf hdown
  · split at hw
    · next hfile =>
      cases hw
      obtain rfl : f = file := hfile.trans (file_of_checked hv)
      intro u hu m hm
      refine (hclosed u hu m hm).mono fun id hid => ?_
      rcases hid with hid | hid
      · refine ⟨f, v, hf, ?_, hid⟩
        rw [verified?_accepted, hnone, Option.none_or, if_pos hfile]
      · obtain ⟨u', hu', rfl⟩ := List.mem_map.mp hid
        have hback : p.Downward files := hdown.of_later hlater
        have himports : ∀ i ∈ source.imports, (p.verified? i.file).isSome → files i.file :=
          fun i hi => hback f hf i.file (hr.linked i hi)
        exact (importedTypes_offered hback himports (by simp) hr.types u' hu').later hlater
    · cases hw

/-- A file that is right gives the project types built on its own and on those it imports. -/
theorem Grounded.finish {g : List (String × Binding)} (hg : Grounded p) (hb : Booked lib g p)
    (hr : Ready lib file source udts p) {v : VerifiedFile}
    (hv : (p.checked file source udts).result = .ok v) :
    Grounded ((p.settled (p.checked file source udts)).left.accepted v) := by
  refine hg.accept hr hv fun u hu m hm => ?_
  obtain ⟨s, hrun, rfl⟩ := verify_result_ok hv
  have hfit : Check.Fit false s :=
    (Check.safe_file (load_sound hr.loaded) _ (hb.fit hg hr)).ok hrun
  obtain ⟨bs, hgrown⟩ := (Check.file_ends source rfl).ok hrun
  have hnew : s.udts = (bs.filterMap (·.udt?)).reverse := by
    simpa [Session.start, Check.reframed] using hgrown.udts
  have hmem : s.memory.udts = bs.filterMap (·.udt?) ++ udts.reverse := by
    rw [← udts_storageWith hb.quiet.udts]
    exact congrArg Tracker.udts hgrown.memory
  have hu' : u ∈ s.memory.udts := by
    rw [hmem]
    exact List.mem_append_left _ (by simpa [hnew] using hu)
  refine (hfit.closed u hu' m hm).mono fun id hid => ?_
  rw [Tracker.active_iff, hmem, List.map_append, List.mem_append] at hid
  rcases hid with hid | hid
  · exact .inl (by simpa [hnew] using hid)
  · exact .inr (by simpa using hid)

/-- While all goes well, the project has a ledger and its types are grounded. -/
theorem advances_grounded (h : Advances lib empty p) :
    (∃ g, Booked lib g p) ∧ Grounded p := by
  induction h with
  | refl => exact ⟨⟨[], booked_empty lib⟩, grounded_empty⟩
  | tail h hs ih =>
    obtain ⟨⟨g, hb⟩, hg⟩ := ih
    refine ⟨hb.advances (.single hs), ?_⟩
    cases hs with
    | enter hv ha => exact hg.later later_entered rfl
    | link ha hl hi hv => exact hg.later (later_linked _) rfl
    | finish hr hv => exact hg.finish hb hr hv

end Project

/-- No program breaks a promise of the compiler. If a file cannot be compiled on a new project, then
the cause is not an internal error: neither a name nor a literal is missing where the reader promised
one, nor the storage of a name or the type of an annotation where the check did, and no return stands
outside of a function. -/
theorem compile_never_internal (lib : Library) (file : String) {e : ProjectError} {p : Project}
    (h : Project.compile lib file .empty = .error e p) :
    ∀ g f, e.rootCause = .semantic g f → ∀ promise, f.cause ≠ .internal promise := by
  intro g f he promise hp
  have hrun : Compile.fileWithin lib lib.limit file .empty = .error e p := h
  obtain ⟨_, _, horigin⟩ := (Project.fileWithin_walks lib lib.limit (by simp [Project.empty])).error hrun
  obtain ⟨q, source, hq, hcheck⟩ := horigin g f he
  obtain ⟨⟨l, hb⟩, hg⟩ := Project.advances_grounded hq
  rcases hcheck with himports | ⟨udts, hr, hresult⟩
  · obtain ⟨_, id, hf⟩ := Project.importedTypes_eq_error himports
    cases hf
    cases hp
  · obtain ⟨s, hrun⟩ := verify_result_error hresult
    have hharmless : Check.Harmless f :=
      (Check.safe_file (Project.load_sound hr.loaded) _ (hb.fit hg hr)).error hrun
    simp [Check.Harmless, hp, SemanticError.isInternal] at hharmless

/-- The exit code one is that of a file that is wrong itself. -/
theorem ProjectError.semantic_of_exitCode {e : ProjectError} {file : String} (hf : e.file = file)
    (hc : e.exitCode = 1) : ∃ f, e = .semantic file f := by
  cases e with
  | semantic g f =>
    cases hf
    exact ⟨f, rfl⟩
  | _ => cases hc

/-- A library whose main file uses a value of a type that only an import of its import exports, and
asks it for a field that it does not have. -/
def distantType : Library :=
  .ofTexts [("main", "import \"lib\"; fn f() \x7b v.x[0]; v.y; \x7d"),
    ("lib", "import \"deep\"; export var v: P;"), ("deep", "export type P \x7b x: u8[2] \x7d")]

/-- The type is known all the same, and the missing field is the fault of the program. -/
theorem compile_never_internal_distantType :
    ∃ e p f, Project.compile distantType "main" .empty = .error e p ∧
      e.rootCause = .semantic "main" f ∧ ∀ promise, f.cause ≠ .internal promise := by
  have hrun : (failure? (Project.compile distantType "main" .empty)).any
      (fun r => r.1.file == "main" && r.1.exitCode == 1) = true := by decide +kernel
  obtain ⟨⟨e, p⟩, hfailure, hcause⟩ := (Option.any_eq_true _ _).mp hrun
  rw [Bool.and_eq_true, beq_iff_eq, beq_iff_eq] at hcause
  obtain ⟨f, rfl⟩ := ProjectError.semantic_of_exitCode hcause.1 hcause.2
  have h := failure?_eq_some.mp hfailure
  exact ⟨_, p, f, h, rfl, compile_never_internal distantType "main" h "main" f rfl⟩

end StoragePlan
