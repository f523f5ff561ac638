import StoragePlan.Proofs.Attempts

/-!
Compiling again after a failure. The files that were verified on the way are verified still and the
imports are linked, so the second attempt passes them by and arrives at the file that has failed.
-/

namespace StoragePlan

namespace Project

variable {lib : Library} {p p' : Project} {file : String} {source : SourceFile} {udts : List Udt}

/-! ### What is declared -/

/-- As long as a file is not verified, steps that go well leave what it has declared. -/
theorem declared_of_advances (h : Advances lib p p') {g : String} (hv : p'.verified? g = none) :
    p'.declared g = p.declared g := by
  induction h with
  | refl => rfl
  | @tail q p' _ hs ih =>
    refine Eq.trans ?_ (ih (hs.later.verified?_eq_none hv))
    cases hs with
    | enter hv ha => exact declared_entered g
    | link ha hl hi hv => exact declared_linked _ g
    | @finish file _ _ v hr hc =>
      refine declared_settled_of_ne fun he => ?_
      rw [verified?_accepted, file_of_checked hc, if_pos he] at hv
      simp at hv

/-! ### The same steps again -/

open Compile

/-- If the step fails then it fails again from the project that it leaves, with the same error if
and only if no file has failed with some of it declared. -/
def FailsAgain (x : Compile Unit) (p : Project) : Prop :=
  Ends x p (fun _ _ => True) fun e p' =>
    (∀ g f, e.rootCause = .semantic g f → p'.verified? g = none) ∧
    ∃ e' p'', x p' = .error e' p'' ∧
      (e' = e ↔ ∀ g f, e.rootCause = .semantic g f → p'.declared g = p.declared g)

/-- A failure without a trace repeats itself. -/
theorem failsAgain_of_eq {x : Compile Unit} {e : ProjectError} (h : x p = .error e p)
    (he : ∀ g f, e.rootCause ≠ .semantic g f) : FailsAgain x p := by
  refine Ends.of_run (fun _ _ _ => trivial) fun e' p' hrun => ?_
  rw [h] at hrun
  cases hrun
  exact ⟨fun g f hf => absurd hf (he g f), e, p, h, iff_of_true rfl fun g f hf => absurd hf (he g f)⟩

section Imports

variable {sub : String → Compile Unit} {i : Import} {is : List Import}

/-- A file that is linked already stays as it is. -/
theorem linked_of_mem {imported : String} (h : imported ∈ p.importsOf file) :
    p.linked file imported = p := by
  unfold linked Registry.addOuter
  have ht : ∀ t, p.names.table? file = some t → t.addOuter imported = t := by
    intro t ht
    simp only [importsOf, ht, Option.map_some, Option.getD_some] at h
    simp [SymbolTable.addOuter, h]
  rw [Registry.onTable_congr (g := fun t => t) ht, Registry.onTable_id]

/-- What is asked of the step that compiles an import. -/
structure Repeats (lib : Library) (sub : String → Compile Unit) : Prop where
  walks : ∀ p other, other ∉ p.active → Walks lib other (sub other) p
  again : ∀ p other, Pending p → Quiet p → other ∉ p.active → FailsAgain (sub other) p
  skips : ∀ p q other, sub other p = .ok () q → ∀ r : Project, (r.verified? other).isSome →
    sub other r = .ok () r

/-- Imports that are verified and linked are passed by. -/
theorem imports_skip (hsub : Repeats lib sub) (hv : ∀ i ∈ is, ∃ q q', sub i.file q = .ok () q')
    (hi : ∀ i ∈ is, (p.verified? i.file).isSome ∧ i.file ∈ p.importsOf file) (hp : Pending p) :
    imports sub file is p = .ok () p := by
  induction is with
  | nil => rfl
  | cons i is ih =>
    rw [List.forall_mem_cons] at hv hi
    obtain ⟨q, q', hq⟩ := hv.1
    have hactive : i.file ∉ p.active := fun hm => by
      have hnone := hp.unverified i.file hm
      simp [hnone] at hi
    rw [imports_of_ok hactive (hsub.skips q q' _ hq p hi.1.1), linked_of_mem hi.1.2]
    exact ih hv.2 hi.2

/-- Every import of a file that gets past its imports has been compiled. -/
theorem imports_ok (h : imports sub file is p = .ok () p') :
    ∀ i ∈ is, ∃ q q', sub i.file q = .ok () q' := by
  induction is generalizing p with
  | nil => simp
  | cons i is ih =>
    by_cases hc : i.file ∈ p.active
    · have hrun := imports_of_active sub file is hc
      rw [h] at hrun
      cases hrun
    · cases hs : sub i.file p with
      | error e q =>
        rw [imports_of_error hc hs] at h
        cases h
      | ok u q =>
        rw [imports_of_ok hc hs] at h
        exact List.forall_mem_cons.mpr ⟨⟨p, q, hs⟩, ih h⟩

/-- The imports of a file fail again. -/
theorem imports_failsAgain (hsub : Repeats lib sub) (hl : load lib file = .ok source)
    (is : List Import) (his : ∀ i ∈ is, i ∈ source.imports) (hp : Pending p) (hq : Quiet p)
    (ha : p.active.getLast? = some file) (ht : (p.names.table? file).isSome) :
    FailsAgain (imports sub file is) p := by
  induction is generalizing p with
  | nil => exact Ends.pure trivial
  | cons i is ih =>
    rw [List.forall_mem_cons] at his
    by_cases hc : i.file ∈ p.active
    · have hrun := imports_of_active sub file is hc
      exact failsAgain_of_eq hrun fun g f hf => by cases hf
    refine Ends.of_run (fun _ _ _ => trivial) fun e p' hrun => ?_
    have hwalk := hsub.walks p i.file hc
    cases hs : sub i.file p with
    | error e₁ q =>
      rw [imports_of_error hc hs] at hrun
      cases hrun
      obtain ⟨_, hactive, _⟩ := hwalk.error hs
      obtain ⟨hun, e', p'', hagain, hiff⟩ := (hsub.again p i.file hp hq hc).error hs
      refine ⟨hun, _, p'', imports_of_error (hactive ▸ hc) hagain, ?_⟩
      simpa [ProjectError.rootCause] using hiff
    | ok u q =>
      rw [imports_of_ok hc hs] at hrun
      obtain ⟨hadvances, hactive, hv⟩ := hwalk.ok hs
      have hlink : Advances lib p (q.linked file i.file) :=
        hadvances.tail (.link (hactive ▸ ha) hl his.1 hv)
      have ht₁ : ((q.linked file i.file).names.table? file).isSome := hlink.later.tables file ht
      have hlinked : i.file ∈ (q.linked file i.file).importsOf file :=
        mem_importsOf_linked (hadvances.later.tables file ht) i.file
      have ha₁ : (q.linked file i.file).active = p.active := hactive
      have hrest := ih his.2 (hp.steps (Advances.steps hlink)) (hq.steps (Advances.steps hlink))
        (ha₁ ▸ ha) ht₁
      obtain ⟨hsteps, ha₂, _⟩ :=
        (imports_ends hsub.walks hl is his.2 (ha₁ ▸ ha) ht₁).error hrun
      obtain ⟨hun, e', p'', hagain, hiff⟩ := hrest.error hrun
      have hlater := Steps.later hsteps
      refine ⟨hun, e', p'', ?_, hiff.trans ?_⟩
      · have hskip := hsub.skips p q i.file hs p' (hlater.isSome_verified? hv)
        rw [imports_of_ok (by rwa [ha₂, ha₁]) hskip, linked_of_mem ((hlater.outer file).subset hlinked)]
        exact hagain
      · refine forall_congr' fun g => forall_congr' fun f => imp_congr_right fun hroot => ?_
        rw [declared_of_advances hlink (hlater.verified?_eq_none (hun g f hroot))]

end Imports

/-! ### Whole files -/

/-- The last of the active files becomes active again. -/
theorem entered_left (ha : p.active.getLast? = some file) (ht : (p.names.table? file).isSome) :
    p.left.entered file = p := by
  obtain ⟨before, hactive⟩ := List.getLast?_eq_some_iff.mp ha
  have hback : p.active.dropLast ++ [file] = p.active := by simp [hactive]
  simp only [entered, left, Registry.addFile_of_isSome ht, hback]

/-- A check that fails changes nothing but storage and symbols. -/
theorem check_frame {e : ProjectError} (h : Compile.check file source p = .error e p') :
    p'.active = p.active ∧ p'.verified = p.verified ∧
      (∀ f, (p.names.table? f).isSome → (p'.names.table? f).isSome) ∧
      ∀ f, p'.importsOf f = p.importsOf f := by
  rcases check_ends.error h with ⟨rfl, _⟩ | ⟨udts, f, _, _, _, rfl⟩
  · exact ⟨rfl, rfl, fun _ h => h, fun _ => rfl⟩
  · exact ⟨rfl, rfl, isSome_table?_settled, importsOf_settled⟩

/-- Compiling a file that is active leaves it active when it fails. -/
theorem source_frame {sub : String → Compile Unit} (hsub : Repeats lib sub)
    (hl : load lib file = .ok source) (hp : Pending p) (ha : p.active.getLast? = some file)
    (ht : (p.names.table? file).isSome) {e : ProjectError}
    (hrun : (do
      imports sub file source.imports
      Compile.check file source) p = .error e p') :
    p'.active = p.active ∧ Pending p' ∧ (p'.names.table? file).isSome := by
  have himports := imports_ends hsub.walks hl source.imports (fun _ h => h) ha ht
  cases h₁ : imports sub file source.imports p with
  | error e₁ q =>
    rw [bind_of_error h₁] at hrun
    cases hrun
    obtain ⟨hsteps, hactive, _⟩ := himports.error h₁
    exact ⟨hactive, hp.steps hsteps, (Steps.later hsteps).tables file ht⟩
  | ok u q =>
    rw [bind_of_ok h₁] at hrun
    obtain ⟨hadvances, hactive, _⟩ := himports.ok h₁
    obtain ⟨hactive', hverified, htable, _⟩ := check_frame hrun
    refine ⟨hactive'.trans hactive, ?_, htable file (hadvances.later.tables file ht)⟩
    exact (hp.steps (Advances.steps hadvances)).of_eq hactive' hverified

/-- A file whose imports are done fails again. -/
theorem source_failsAgain {sub : String → Compile Unit} (hsub : Repeats lib sub)
    (hl : load lib file = .ok source) (hp : Pending p) (hq : Quiet p)
    (ha : p.active.getLast? = some file) (ht : (p.names.table? file).isSome) :
    FailsAgain (do
      imports sub file source.imports
      Compile.check file source) p := by
  have himports := imports_ends hsub.walks hl source.imports (fun _ h => h) ha ht
  refine Ends.of_run (fun _ _ _ => trivial) fun e p' hrun => ?_
  cases h₁ : imports sub file source.imports p with
  | error e₁ q =>
    rw [bind_of_error h₁] at hrun
    cases hrun
    obtain ⟨hun, e', p'', hagain, hiff⟩ :=
      (imports_failsAgain hsub hl source.imports (fun _ h => h) hp hq ha ht).error h₁
    exact ⟨hun, e', p'', bind_of_error hagain, hiff⟩
  | ok u q =>
    rw [bind_of_ok h₁] at hrun
    obtain ⟨hadvances, hactive, hi⟩ := himports.ok h₁
    have hpq := hp.steps (Advances.steps hadvances)
    obtain ⟨e', p'', hagain, ⟨f, rfl⟩, hiff⟩ :=
      check_again (hq.steps (Advances.steps hadvances)) hl (hadvances.later.tables file ht) hrun
    obtain ⟨hactive', hverified, _, houter⟩ := check_frame hrun
    have hpp : Pending p' := hpq.of_eq hactive' hverified
    have hskip : imports sub file source.imports p' = .ok () p' := by
      refine imports_skip hsub (imports_ok h₁) (fun i him => ?_) hpp
      rw [houter, verified?, hverified]
      exact hi i him
    have hlast : file ∈ q.active := hactive ▸ List.mem_of_getLast? ha
    have hnone : q.verified? file = none := hpq.unverified file hlast
    refine ⟨fun g f' hroot => ?_, e', p'', (bind_of_ok hskip).trans hagain, hiff.trans ?_⟩
    · cases hroot
      exact hpp.unverified file (hactive'.symm ▸ hlast)
    · rw [declared_of_advances hadvances hnone]
      simp [ProjectError.rootCause]

/-- Compiling a file that has failed fails again. -/
theorem fileWithin_repeats (lib : Library) (n : Nat) : Repeats lib (fileWithin lib n) := by
  induction n with
  | zero =>
    refine ⟨fun p other => fileWithin_walks lib 0, fun p other _ _ _ => ?_, fun p q other h => ?_⟩
    · exact failsAgain_of_eq (e := .load other "too many nested imports") rfl (by simp [ProjectError.rootCause])
    · cases h
  | succ n ih =>
    refine ⟨fun p other => fileWithin_walks lib (n + 1), fun p file hp hq ha => ?_,
      fun p q other _ r hr => fileWithin_of_verified hr⟩
    by_cases hv : (p.verified? file).isSome
    · refine Ends.of_run (fun _ _ _ => trivial) fun e p' hrun => ?_
      rw [fileWithin_of_verified hv] at hrun
      cases hrun
    rw [Option.not_isSome_iff_eq_none] at hv
    cases hl : load lib file with
    | error e => exact failsAgain_of_eq (fileWithin_of_unread hv hl) (load_not_semantic hl)
    | ok source =>
      have henter : Advance lib p (p.entered file) := .enter hv ha
      have hp₀ : Pending (p.entered file) := hp.advance henter
      have ha₀ : (p.entered file).active.getLast? = some file := by simp [entered]
      have ht₀ : ((p.entered file).names.table? file).isSome := by
        simp [entered, Registry.table?_addFile]
      refine Ends.of_run (fun _ _ _ => trivial) fun e p' hrun => ?_
      rw [fileWithin_of_load hv hl] at hrun
      split at hrun
      · cases hrun
      · next e₁ q hbody =>
        cases hrun
        obtain ⟨hactive, hpq, htq⟩ := source_frame ih hl hp₀ ha₀ ht₀ hbody
        obtain ⟨hun, e', p'', hagain, hiff⟩ :=
          (source_failsAgain ih hl hp₀ hq.entered ha₀ ht₀).error hbody
        have hlast : q.active.getLast? = some file := hactive ▸ ha₀
        have hvq : q.left.verified? file = none :=
          hpq.unverified file (List.mem_of_getLast? hlast)
        refine ⟨hun, e', p''.left, ?_, ?_⟩
        · rw [fileWithin_of_load hvq hl, entered_left hlast htq, hagain]
        · simp only [declared_entered] at hiff
          exact hiff

theorem after_of_error {e : ProjectError} (h : compile lib file p = .error e p') :
    p.after lib file = p' := by
  simp only [after, h]

end Project

/-- What a failed attempt to compile leaves, after any attempts before it. Storage holds globals of
verified files only, exactly if no file that is not verified has a function, a variable or a constant.
The next attempt fails as well, and it does so with the same error exactly if the file at fault has
declared nothing in the attempt before. -/
theorem failure_leaves_nothing_iff (lib : Library) (files : List String) (file : String)
    {e : ProjectError} {p : Project}
    (h : Project.compile lib file (.afterAll (files.map fun f => (lib, f))) = .error e p) :
    ((∀ el ∈ p.memory.dataSegment, ∃ v ∈ p.verified, p.Declares v.file el) ↔
      ∀ f, p.verified? f = none → ∀ x ∈ p.declared f, x.isUdt = true) ∧
    ∃ e' p', Project.compile lib file p = .error e' p' ∧
      (e' = e ↔ ∀ g f, e.rootCause = .semantic g f →
        p.declared g = (Project.afterAll (files.map fun f => (lib, f))).declared g) := by
  let before := Project.afterAll (files.map fun f => (lib, f))
  obtain ⟨hquiet, hactive⟩ : before.Quiet ∧ before.active = [] := Project.afterAll_quiet _
  have hafter : before.after lib file = p := Project.after_of_error h
  have hrecorded : p.Recorded := hafter ▸ (Project.afterAll_recorded _).after lib file
  have hidle : p.active = [] := hafter ▸ (Project.after_steps lib file before).2
  have hpending : before.Pending := ⟨by simp [hactive], by simp [hactive]⟩
  have hrun : Compile.fileWithin lib lib.limit file before = .error e p := by
    rw [← Project.idle_of_active hactive]
    exact h
  have hagain := (Project.fileWithin_repeats lib lib.limit).again before file hpending hquiet
    (by simp [hactive])
  obtain ⟨_, e', p', hrun', hiff⟩ := hagain.error hrun
  refine ⟨hrecorded.owned_by_verified_iff, e', p', ?_, hiff⟩
  rw [← Project.idle_of_active hidle] at hrun'
  exact hrun'

/-- A library whose only file declares one variable and fails at the next. -/
def halfDeclared : Library := .ofTexts [("main", "var a: u8; var b: u8 = c;")]

/-- The first variable stays in storage though its file is not verified, and the second attempt fails
in another way than the first. -/
theorem failure_leaves_nothing_iff_halfDeclared :
    ∃ e p, Project.compile halfDeclared "main" .empty = .error e p ∧
      (¬ ∀ el ∈ p.memory.dataSegment, ∃ v ∈ p.verified, p.Declares v.file el) ∧
      ∃ e' p', Project.compile halfDeclared "main" p = .error e' p' ∧ e' ≠ e := by
  have hrun : (failure? (Project.compile halfDeclared "main" .empty)).any
      (fun r => r.1.file == "main" && r.1.exitCode == 1 && (r.2.verified? "main").isNone &&
        (r.2.declared "main").any (!·.isUdt)) = true := by decide +kernel
  obtain ⟨⟨e, p⟩, hfailure, hcause⟩ := (Option.any_eq_true _ _).mp hrun
  simp only [Bool.and_eq_true, beq_iff_eq, Option.isNone_iff_eq_none, List.any_eq_true] at hcause
  obtain ⟨⟨⟨hfile, hcode⟩, hv⟩, x, hx, hu⟩ := hcause
  obtain ⟨f, rfl⟩ := ProjectError.semantic_of_exitCode hfile hcode
  have h := failure?_eq_some.mp hfailure
  obtain ⟨howned, e', p', h', hsame⟩ := failure_leaves_nothing_iff halfDeclared [] "main" h
  refine ⟨_, p, h, fun hall => ?_, e', p', h', fun heq => ?_⟩
  · simp [howned.mp hall "main" hv x hx] at hu
  · have hnone := hsame.mp heq "main" f rfl
    rw [hnone] at hx
    cases hx

end StoragePlan
