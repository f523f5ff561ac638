import StoragePlan.Proofs.Restoration

/-!
The order in which files are verified. A compilation is a walk through the graph of imports that
verifies a file when all its imports are verified, so the list of verified files is a topological
sort: of the import closure after a first compilation, and of the links in the symbol tables after any
attempts whatsoever.
-/

namespace StoragePlan

open Relation

/-- A file of a library can be read and imports another. -/
def Library.Imports (lib : Library) (file other : String) : Prop :=
  ∃ source, Project.load lib file = .ok source ∧ ∃ i ∈ source.imports, i.file = other

/-! ### Lists in order -/

/-- Every file of the list comes after all files that it needs. -/
def Ranked (needs : String → String → Prop) (files : List String) : Prop :=
  ∀ before file after, files = before ++ file :: after → ∀ other, needs file other → other ∈ before

namespace Ranked

variable {needs needs' : String → String → Prop} {files before after : List String}
  {file other : String}

theorem nil : Ranked needs [] := by
  intro before file after h
  simp at h

theorem concat (h : Ranked needs files) (hn : ∀ other, needs file other → other ∈ files) :
    Ranked needs (files ++ [file]) := by
  intro before g after heq other hneeds
  rcases List.eq_nil_or_concat after with rfl | ⟨after, last, rfl⟩
  · obtain ⟨rfl, hg⟩ := List.append_inj' heq rfl
    obtain rfl : file = g := by simpa using hg
    exact hn other hneeds
  · have heq' : files ++ [file] = (before ++ g :: after) ++ [last] := by simpa using heq
    exact h before g after (List.append_inj' heq' rfl).1 other hneeds

theorem mono (h : Ranked needs files)
    (hn : ∀ file ∈ files, ∀ other, needs' file other → needs file other) : Ranked needs' files := by
  intro before file after heq other hneeds
  exact h before file after heq other (hn file (by simp [heq]) other hneeds)

/-- What a file needs at whatever remove comes before it. -/
theorem mem_before (h : Ranked needs files) (ht : TransGen needs file other)
    (heq : files = before ++ file :: after) : other ∈ before := by
  induction ht using TransGen.head_induction_on generalizing before after with
  | single hneeds => exact h before _ after heq other hneeds
  | @head file next hneeds _ ih =>
    obtain ⟨before', between, hsplit⟩ := List.append_of_mem (h before file after heq next hneeds)
    have hmem : other ∈ before' := ih (by rw [heq, hsplit, List.append_assoc, List.cons_append])
    rw [hsplit]
    exact List.mem_append_left _ hmem

theorem mem_of_reflTransGen (h : Ranked needs files) (hf : file ∈ files)
    (ht : ReflTransGen needs file other) : other ∈ files := by
  rcases reflTransGen_iff_eq_or_transGen.mp ht with rfl | ht
  · exact hf
  · obtain ⟨before, after, rfl⟩ := List.append_of_mem hf
    exact List.mem_append_left _ (h.mem_before ht rfl)

/-- No file needs itself. -/
theorem acyclic (h : Ranked needs files) (hn : files.Nodup) (hf : file ∈ files) :
    ¬ TransGen needs file file := by
  intro ht
  obtain ⟨before, after, rfl⟩ := List.append_of_mem hf
  have hbefore : file ∈ before := h.mem_before ht rfl
  exact (List.nodup_append.mp hn).2.2 file hbefore file List.mem_cons_self rfl

end Ranked

namespace Project

variable {lib : Library} {p p' : Project} {file : String} {source : SourceFile}

/-- The verified files, the first one first. -/
def order (p : Project) : List String := p.verified.map (·.file)

theorem mem_order : file ∈ p.order ↔ (p.verified? file).isSome := by
  simp [order, verified?, List.find?_isSome]

theorem order_accepted (v : VerifiedFile) : (p.accepted v).order = p.order ++ [v.file] := by
  simp [order, accepted]

/-! ### Links -/

/-- Verified files are listed once, and each comes after the files to which its table is linked. -/
structure Arranged (p : Project) : Prop where
  nodup : p.order.Nodup
  linked : ∀ file, ∀ other ∈ p.importsOf file, other ∈ p.order
  ranked : Ranked (fun file other => other ∈ p.importsOf file) p.order

theorem arranged_empty : Arranged empty := by
  constructor
  case nodup => exact List.nodup_nil
  case linked =>
    intro file other h
    cases h
  case ranked => exact Ranked.nil

/-- Only the verified files and the links matter. -/
theorem Arranged.of_eq (h : Arranged p) (hv : p'.order = p.order)
    (hi : ∀ file, p'.importsOf file = p.importsOf file) : Arranged p' := by
  constructor
  case nodup => exact hv ▸ h.nodup
  case linked =>
    intro file other hother
    rw [hi] at hother
    exact hv ▸ h.linked file other hother
  case ranked =>
    rw [hv]
    refine h.ranked.mono fun file _ other hother => ?_
    rwa [hi] at hother

/-- A link starts at an active file, and so at none that is listed. -/
theorem Arranged.link (h : Arranged p) (hp : Pending p) (ha : p.active.getLast? = some file)
    {imported : String} (hv : (p.verified? imported).isSome) :
    Arranged (p.linked file imported) := by
  have hnew : file ∉ p.order := by
    rw [mem_order, hp.unverified file (List.mem_of_getLast? ha)]
    simp
  constructor
  case nodup => exact h.nodup
  case linked =>
    intro g other hother
    rw [importsOf_linked] at hother
    split at hother
    · rcases List.mem_append.mp hother with hother | hother
      · exact h.linked file other hother
      · rw [List.mem_singleton.mp hother]
        exact mem_order.mpr hv
    · exact h.linked g other hother
  case ranked =>
    refine h.ranked.mono fun g hg other hother => ?_
    have hne : g ≠ file := fun heq => hnew (heq ▸ hg)
    rwa [importsOf_linked, if_neg (fun hand => hne hand.1)] at hother

theorem Arranged.finish (h : Arranged p) (hp : Pending p) (ha : p.active.getLast? = some file)
    {udts : List Udt} {v : VerifiedFile} (hv : (p.checked file source udts).result = .ok v) :
    Arranged ((p.settled (p.checked file source udts)).left.accepted v) := by
  have hfile : v.file = file := file_of_checked hv
  have hnew : file ∉ p.order := by
    rw [mem_order, hp.unverified file (List.mem_of_getLast? ha)]
    simp
  have horder : ((p.settled (p.checked file source udts)).left.accepted v).order =
      p.order ++ [file] := by
    rw [order_accepted, hfile]
    rfl
  have himports : ∀ g, ((p.settled (p.checked file source udts)).left.accepted v).importsOf g =
      p.importsOf g := importsOf_settled
  constructor
  case nodup =>
    rw [horder, List.nodup_append]
    refine ⟨h.nodup, by simp, fun g hg g' hg' heq => hnew ?_⟩
    rwa [← List.mem_singleton.mp hg', ← heq]
  case linked =>
    intro g other hother
    rw [himports] at hother
    rw [horder]
    exact List.mem_append_left _ (h.linked g other hother)
  case ranked =>
    rw [horder]
    simp only [himports]
    exact h.ranked.concat (h.linked file)

theorem Arranged.step (h : Arranged p) (hp : Pending p) (hs : Step lib p p') : Arranged p' := by
  rcases hs with hs | hs
  · cases hs with
    | enter hv ha => exact h.of_eq rfl importsOf_entered
    | link ha hl hi hv => exact h.link hp ha hv
    | finish hr hv => exact h.finish hp hr.active hv
  · cases hs with
    | fail hr hf => exact h.of_eq rfl importsOf_settled
    | leave => exact h.of_eq rfl fun _ => rfl

theorem Arranged.after (h : Arranged p) (lib : Library) (file : String) :
    Arranged (p.after lib file) := by
  have hidle : Arranged p.idle ∧ Pending p.idle :=
    ⟨h.of_eq rfl fun _ => rfl, List.nodup_nil, fun _ hf => by cases hf⟩
  have hend : Arranged (p.after lib file) ∧ Pending (p.after lib file) :=
    (after_steps lib file p).1.keep (P := fun q => Arranged q ∧ Pending q)
      (fun _ _ hq hs => ⟨hq.1.step hq.2 hs, hq.2.step hs⟩) hidle
  exact hend.1

theorem afterAll_arranged (calls : List (Library × String)) : Arranged (afterAll calls) :=
  afterAll_keep arranged_empty (fun lib file _ h => h.after lib file) calls

/-! ### Imports -/

/-- A file is verified after the files that its source imports. -/
theorem Advances.ranked (h : Advances lib p p') (hr : Ranked lib.Imports p.order) :
    Ranked lib.Imports p'.order := by
  induction h with
  | refl => exact hr
  | @tail q p' _ hs ih =>
    cases hs with
    | enter hv ha => exact ih
    | link ha hl hi hv => exact ih
    | @finish file source udts v hready hv =>
      rw [order_accepted, file_of_checked hv]
      refine Ranked.concat ih ?_
      rintro other ⟨source', hl, i, hi, rfl⟩
      obtain rfl : source = source' := Except.ok.inj (hready.loaded.symm.trans hl)
      exact mem_order.mpr (hready.verified i hi)

open Compile

/-- A file that is newly verified can be reached from the file that is compiled. -/
def Reached (lib : Library) (file : String) (p p' : Project) : Prop :=
  ∀ g ∈ p'.order, g ∈ p.order ∨ ReflTransGen lib.Imports file g

theorem imports_reached {sub : String → Compile Unit}
    (hsub : ∀ other p, Ends (sub other) p (fun _ p' => Reached lib other p p') fun _ _ => True)
    (hl : load lib file = .ok source) (is : List Import) (his : ∀ i ∈ is, i ∈ source.imports) :
    Ends (imports sub file is) p (fun _ p' => Reached lib file p p') fun _ _ => True := by
  induction is generalizing p with
  | nil => exact Ends.pure fun g hg => .inl hg
  | cons i is ih =>
    rw [List.forall_mem_cons] at his
    refine Ends.bind (Ends.get ?_)
    dsimp only
    split
    · exact Ends.throw trivial
    · have hwrap : Ends (wrapping file i (sub i.file)) p (fun _ p' => Reached lib i.file p p')
          fun _ _ => True := wrapping_ends (hsub i.file p)
      refine hwrap.seq (fun _ _ _ => trivial) fun _ p₁ h₁ => ?_
      refine Ends.bind (Ends.modify ((ih his.2).mono (fun _ p₂ h₂ g hg => ?_) fun _ _ _ => trivial))
      rcases h₂ g hg with hg | hreach
      · rcases h₁ g hg with hg | hreach
        · exact .inl hg
        · exact .inr (.head ⟨source, hl, i, his.1, rfl⟩ hreach)
      · exact .inr hreach

/-- Compiling a file verifies what it can reach, and the file itself last. -/
theorem fileWithin_reached (lib : Library) (n : Nat) (file : String) (p : Project) :
    Ends (fileWithin lib n file) p
      (fun _ p' => Reached lib file p p' ∧ (file ∈ p.order ∨ p'.order.getLast? = some file))
      fun _ _ => True := by
  induction n generalizing file p with
  | zero => exact Ends.throw trivial
  | succ n ih =>
    refine Ends.bind (Ends.get ?_)
    split
    · next hv => exact Ends.pure ⟨fun g hg => .inl hg, .inl (mem_order.mpr hv)⟩
    · refine (ofExcept_ends _).seq (fun _ _ _ => trivial) ?_
      rintro source p ⟨rfl, hl⟩
      refine whileActive_ends (Ends.bind (Ends.modify ?_))
      have hsub : ∀ other p, Ends (fileWithin lib n other) p (fun _ p' => Reached lib other p p')
          fun _ _ => True := fun other p => (ih other p).mono (fun _ _ h => h.1) fun _ _ h => h
      refine (imports_reached hsub hl source.imports fun _ h => h).seq (fun _ _ h => h) ?_
      intro _ p₁ h₁
      refine check_ends.mono ?_ fun _ _ _ => trivial
      rintro _ _ ⟨udts, v, _, hv, rfl⟩
      have horder : ((p₁.settled (p₁.checked file source udts)).accepted v).left.order =
          p₁.order ++ [file] := by
        rw [← file_of_checked hv]
        exact order_accepted v
      refine ⟨fun g hg => ?_, .inr (by rw [horder, List.getLast?_concat])⟩
      rw [horder] at hg
      rcases List.mem_append.mp hg with hg | hg
      · exact h₁ g hg
      · exact .inr (List.mem_singleton.mp hg ▸ .refl)

end Project

/-- A compilation that succeeds sorts the import closure. On a new project the verified files are all
different, they are exactly the files that the imports of `file` lead to, `file` is the last of them,
and each comes after the files that it imports, so that none imports itself at any remove. Whatever is
compiled from whatever libraries, the verified files stay different and each comes after the files to
which its table is linked. -/
theorem verified_in_order (lib : Library) (file : String) {p : Project}
    (h : Project.compile lib file .empty = .ok () p) :
    p.order.Nodup ∧
    (∀ g, g ∈ p.order ↔ ReflTransGen lib.Imports file g) ∧
    p.order.getLast? = some file ∧
    Ranked lib.Imports p.order ∧
    (∀ g, ReflTransGen lib.Imports file g → ¬ TransGen lib.Imports g g) ∧
    ∀ calls : List (Library × String),
      let q := calls.foldl (fun q c => q.after c.1 c.2) p
      q.order.Nodup ∧ Ranked (fun g other => other ∈ q.importsOf g) q.order := by
  have hrun : Compile.fileWithin lib lib.limit file .empty = .ok () p := h
  obtain ⟨hadvances, _, _⟩ :=
    (Project.fileWithin_walks lib lib.limit (by simp [Project.empty])).ok hrun
  obtain ⟨hreached, hlast⟩ := (Project.fileWithin_reached lib lib.limit file .empty).ok hrun
  have hafter : Project.after lib file .empty = p := by simp only [Project.after, h]
  have hnodup : p.order.Nodup := hafter ▸ (Project.arranged_empty.after lib file).nodup
  have hranked : Ranked lib.Imports p.order := hadvances.ranked Ranked.nil
  have hlast : p.order.getLast? = some file :=
    hlast.resolve_left (by simp [Project.order, Project.empty])
  have hclosure : ∀ g, ReflTransGen lib.Imports file g → g ∈ p.order := fun g hg =>
    hranked.mem_of_reflTransGen (List.mem_of_getLast? hlast) hg
  refine ⟨hnodup, fun g => ⟨fun hg => ?_, hclosure g⟩, hlast, hranked, fun g hg => ?_,
    fun calls => ?_⟩
  · exact (hreached g hg).resolve_left (by simp [Project.order, Project.empty])
  · exact hranked.acyclic hnodup (hclosure g hg)
  · have hlater := Project.afterAll_arranged ((lib, file) :: calls)
    rw [Project.afterAll, List.foldl_cons, hafter] at hlater
    exact ⟨hlater.nodup, hlater.ranked⟩

/-- A library in which two files import a third, and a fourth imports the two. -/
def diamond : Library :=
  .ofTexts [("main", "import \"left\"; import \"right\"; import \"left\";"),
    ("left", "import \"base\";"), ("right", "import \"base\"; var r: u8;"), ("base", "var b: u8;")]

/-- The shared file is verified once, before the two that import it. -/
theorem verified_in_order_diamond :
    ∃ p, Project.compile diamond "main" .empty = .ok () p ∧
      p.order = ["base", "left", "right", "main"] ∧
      (∀ g, g ∈ p.order ↔ ReflTransGen diamond.Imports "main" g) ∧
      Ranked diamond.Imports p.order ∧ ¬ TransGen diamond.Imports "main" "main" := by
  have hrun : (success? (Project.compile diamond "main" .empty)).map (·.order) =
      some ["base", "left", "right", "main"] := by decide +kernel
  obtain ⟨p, hp, horder⟩ := Option.map_eq_some_iff.mp hrun
  have h := success?_eq_some.mp hp
  obtain ⟨_, hclosure, _, hranked, hacyclic, _⟩ := verified_in_order diamond "main" h
  exact ⟨p, h, horder, hclosure, hranked, hacyclic "main" .refl⟩

end StoragePlan
