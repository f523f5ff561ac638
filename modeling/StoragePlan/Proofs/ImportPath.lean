import Mathlib.Data.List.Chain
import StoragePlan.Proofs.ImportOrder

/-!
What a compile error names. The error is wrapped once on the way out of every import, so it records a
path: from the file that was asked for to the file that failed, each imported by the one before it.
The path is the list of the files that were active at the failure; where the failure is a circular
import, the cycle is the end of the path from the file that is imported again.
-/

namespace StoragePlan

/-- A file, a place in it, and the file that is imported there. -/
structure Hop where
  file : String
  position : Position
  target : String
  deriving DecidableEq, Repr

namespace ProjectError

variable {e : ProjectError}

/-- The imports that an error records, from the file that was asked for on. -/
def hops : ProjectError → List Hop
  | imported f p target inner => ⟨f, p, target⟩ :: inner.hops
  | _ => []

theorem chain_ne_nil (e : ProjectError) : e.chain ≠ [] := by
  cases e <;> simp [chain]

theorem head?_chain (e : ProjectError) : e.chain.head? = some e.file := by
  cases e <;> rfl

theorem getLast?_chain (e : ProjectError) : e.chain.getLast? = some e.rootCause.file := by
  induction e with
  | imported f p target inner ih =>
    rw [chain, List.getLast?_cons, ih]
    rfl
  | _ => rfl

theorem map_file_hops (e : ProjectError) : e.hops.map (·.file) = e.chain.dropLast := by
  induction e with
  | imported f p target inner ih =>
    rw [hops, List.map_cons, ih, chain, List.dropLast_cons_of_ne_nil (chain_ne_nil inner)]
  | _ => rfl

/-- Each file of the chain is related to the next if the recorded imports are, and name the chain. -/
theorem isChain_chain {R : String → String → Prop} (ht : e.hops.map (·.target) = e.chain.tail)
    (hR : ∀ h ∈ e.hops, R h.file h.target) : e.chain.IsChain R := by
  induction e with
  | imported f p target inner ih =>
    rw [hops, List.forall_mem_cons] at hR
    obtain ⟨rest, hchain⟩ := List.head?_eq_some_iff.mp inner.head?_chain
    simp only [hops, chain, List.map_cons, List.tail_cons] at ht
    have hinner : inner.hops.map (·.target) = inner.chain.tail := by rw [← ht, List.tail_cons]
    have hnext : target = inner.file := by
      rw [hchain] at ht
      exact (List.cons.inj ht).1
    have htail := ih hinner hR.2
    rw [hchain] at htail
    rw [chain, hchain]
    exact htail.cons_cons (hnext ▸ hR.1)
  | _ => exact .singleton _

end ProjectError

/-- The file of the hop imports its target at this place, and all its imports before that are
verified. -/
def Hop.At (lib : Library) (p : Project) (h : Hop) : Prop :=
  ∃ source before i after, Project.load lib h.file = .ok source ∧
    source.imports = before ++ i :: after ∧ i.token.position = h.position ∧ i.file = h.target ∧
    ∀ b ∈ before, (p.verified? b.file).isSome

theorem Hop.At.imports {lib : Library} {p : Project} {h : Hop} (hat : h.At lib p) :
    lib.Imports h.file h.target := by
  obtain ⟨source, before, i, after, hl, hsplit, _, htarget, _⟩ := hat
  exact ⟨source, hl, i, by simp [hsplit], htarget⟩

/-! ### The path of an error -/

/-- The error is that of `file`, compiled while the files `active` are active, and `p` is the project
that is left. -/
structure Trail (lib : Library) (active : List String) (file : String) (e : ProjectError)
    (p : Project) : Prop where
  file : e.file = file
  targets : e.hops.map (·.target) = e.chain.tail
  nodup : (active ++ e.chain).Nodup
  unverified : ∀ g ∈ e.chain, p.verified? g = none
  hops : ∀ h ∈ e.hops, h.At lib p
  cycle : ∀ g pos cycle, e.rootCause = .circular g pos cycle → ∃ target ∈ active ++ e.chain,
    cycle = (active ++ e.chain).dropWhile (· != target) ++ [target] ∧ Hop.At lib p ⟨g, pos, target⟩

namespace Project

open Compile

variable {lib : Library} {p p' : Project} {active files : List String} {file : String}
  {source : SourceFile}

/-- The error of a file itself, whose imports are not to blame. -/
theorem trail_of_file {e : ProjectError} (hn : (active ++ [file]).Nodup)
    (hv : p.verified? file = none) (hchain : e.chain = [file]) (hhops : e.hops = [])
    (hc : ∀ g pos cycle, e.rootCause ≠ .circular g pos cycle) : Trail lib active file e p := by
  constructor
  case file =>
    have hhead := e.head?_chain
    rw [hchain] at hhead
    exact (Option.some.inj hhead).symm
  case targets => simp [hchain, hhops]
  case nodup => rwa [hchain]
  case unverified =>
    intro g hg
    rw [hchain] at hg
    rwa [List.mem_singleton.mp hg]
  case hops => simp [hhops]
  case cycle =>
    intro g pos cycle h
    exact absurd h (hc g pos cycle)

theorem trail_of_load {e : ProjectError} (hl : load lib file = .error e)
    (hn : (active ++ [file]).Nodup) (hv : p.verified? file = none) : Trail lib active file e p := by
  unfold load tokenize at hl
  split at hl
  · next ht =>
    split at ht
    · cases ht
      cases hl
      exact trail_of_file hn hv rfl rfl (fun _ _ _ h => by cases h)
    · split at ht
      · cases ht
        cases hl
        exact trail_of_file hn hv rfl rfl (fun _ _ _ h => by cases h)
      · cases ht
  · split at hl
    · cases hl
      exact trail_of_file hn hv rfl rfl (fun _ _ _ h => by cases h)
    · cases hl

/-- A file that is active imports an active file. -/
theorem trail_circular (hp : Pending p) (ha : p.active = active ++ [file]) {i : Import}
    (hi : i.file ∈ p.active) (hat : Hop.At lib p ⟨file, i.token.position, i.file⟩) :
    Trail lib active file
      (.circular file i.token.position (p.active.dropWhile (· != i.file) ++ [i.file])) p := by
  constructor
  case file => rfl
  case targets => rfl
  case nodup => exact ha ▸ hp.nodup
  case unverified =>
    intro g hg
    rw [List.mem_singleton.mp hg]
    exact hp.unverified file (by simp [ha])
  case hops =>
    intro h hh
    cases hh
  case cycle =>
    intro g pos cycle h
    cases h
    exact ⟨i.file, ha ▸ hi, by rw [ha]; rfl, hat⟩

/-- The error of an import is wrapped. -/
theorem trail_imported {i : Import} {inner : ProjectError}
    (h : Trail lib (active ++ [file]) i.file inner p) (hv : p.verified? file = none)
    (hat : Hop.At lib p ⟨file, i.token.position, i.file⟩) :
    Trail lib active file (.imported file i.token.position i.file inner) p := by
  have hfiles : active ++ file :: inner.chain = (active ++ [file]) ++ inner.chain := by simp
  constructor
  case file => rfl
  case targets =>
    obtain ⟨rest, hchain⟩ := List.head?_eq_some_iff.mp inner.head?_chain
    simp [ProjectError.hops, ProjectError.chain, h.targets, hchain, h.file]
  case nodup =>
    rw [ProjectError.chain, hfiles]
    exact h.nodup
  case unverified => exact List.forall_mem_cons.mpr ⟨hv, h.unverified⟩
  case hops => exact List.forall_mem_cons.mpr ⟨hat, h.hops⟩
  case cycle =>
    rw [ProjectError.chain, hfiles]
    exact h.cycle

/-- The imports of a file, those in `done` being verified. -/
theorem imports_trail {sub : String → Compile Unit}
    (hwalks : ∀ p other, other ∉ p.active → Walks lib other (sub other) p)
    (hsub : ∀ p other, Pending p → p.active = active ++ [file] → other ∉ p.active →
      Ends (sub other) p (fun _ _ => True) fun e p' => Trail lib p.active other e p')
    (hl : load lib file = .ok source) (done is : List Import)
    (hsplit : source.imports = done ++ is) (hdone : ∀ b ∈ done, (p.verified? b.file).isSome)
    (hp : Pending p) (ha : p.active = active ++ [file]) :
    Ends (imports sub file is) p (fun _ _ => True) fun e p' => Trail lib active file e p' := by
  induction is generalizing p done with
  | nil => exact Ends.pure trivial
  | cons i is ih =>
    refine Ends.bind (Ends.get ?_)
    dsimp only
    split
    · next hc =>
      refine Ends.throw (trail_circular hp ha (by simpa using hc) ?_)
      exact ⟨source, done, i, is, hl, hsplit, rfl, rfl, hdone⟩
    · next hc =>
      have hnew : i.file ∉ p.active := by simpa using hc
      have hwrap : Ends (wrapping file i (sub i.file)) p
          (fun _ p₁ => Advances lib p p₁ ∧ p₁.active = p.active ∧ (p₁.verified? i.file).isSome)
          fun e p₁ => Trail lib active file e p₁ := by
        refine wrapping_ends (((hwalks p i.file hnew).and (hsub p i.file hp ha hnew)).mono
          (fun _ _ h => h.1) ?_)
        rintro inner p₁ ⟨⟨hsteps, hactive, _⟩, htrail⟩
        rw [ha] at htrail
        refine trail_imported htrail ?_ ⟨source, done, i, is, hl, hsplit, rfl, rfl, fun b hb => ?_⟩
        · exact (hp.steps hsteps).unverified file (by simp [hactive, ha])
        · exact (Steps.later hsteps).isSome_verified? (hdone b hb)
      refine hwrap.seq (fun _ _ h => h) ?_
      rintro _ p₁ ⟨hadvances, hactive, hv⟩
      refine Ends.bind (Ends.modify (ih (done ++ [i]) (by simp [hsplit]) ?_ ?_ (hactive.trans ha)))
      · intro b hb
        rcases List.mem_append.mp hb with hb | hb
        · exact hadvances.later.isSome_verified? (hdone b hb)
        · rw [List.mem_singleton.mp hb]
          exact hv
      · exact (hp.steps (Advances.steps hadvances)).of_eq rfl rfl

/-- Compiling a file fails with a trail. There are fewer than `n` files left that could become
active, so the bound is not met. -/
theorem fileWithin_trail (hfiles : ∀ f source, load lib f = .ok source → f ∈ files) (n : Nat)
    (hp : Pending p) (hactive : ∀ f ∈ p.active, f ∈ files)
    (hn : files.length < n + p.active.length) (ha : file ∉ p.active) :
    Ends (fileWithin lib n file) p (fun _ _ => True) fun e p' => Trail lib p.active file e p' := by
  induction n generalizing file p with
  | zero =>
    have hle := List.Nodup.length_le_of_subset hp.nodup hactive
    omega
  | succ n ih =>
    refine Ends.bind (Ends.get ?_)
    split
    · exact Ends.pure trivial
    · next hv =>
      rw [Option.not_isSome_iff_eq_none] at hv
      have henter : Advance lib p (p.entered file) := .enter hv ha
      have hentered : Pending (p.entered file) := hp.advance henter
      refine (ofExcept_ends _).seq ?_ ?_
      · rintro e p ⟨rfl, hl⟩
        exact trail_of_load hl hentered.nodup hv
      rintro source p ⟨rfl, hl⟩
      have ht : ((p.entered file).names.table? file).isSome := by
        simp [entered, Registry.table?_addFile]
      refine whileActive_ends (Ends.bind (Ends.modify ?_))
      have himports : Ends (imports (fileWithin lib n) file source.imports) (p.entered file)
          (fun _ p₁ => Pending p₁ ∧ p₁.active = p.active ++ [file])
          fun e p₁ => Trail lib p.active file e p₁ := by
        refine ((imports_ends (fun _ _ => fileWithin_walks lib n) hl source.imports
          (fun _ h => h) (by simp [entered]) ht).and (imports_trail
          (fun _ _ => fileWithin_walks lib n) ?_ hl [] source.imports rfl (by simp) hentered
          rfl)).mono ?_ fun _ _ h => h.2
        · intro q other hq hqa hother
          refine ih hq ?_ ?_ hother
          · rw [hqa]
            exact List.forall_mem_append.mpr ⟨hactive, by simpa using hfiles file source hl⟩
          · rw [hqa, List.length_append, List.length_singleton]
            omega
        · rintro _ p₁ ⟨⟨hadvances, hact, _⟩, _⟩
          exact ⟨hentered.steps (Advances.steps hadvances), hact⟩
      refine himports.seq
        (fun _ _ h => ⟨h.file, h.targets, h.nodup, h.unverified, h.hops, h.cycle⟩) ?_
      rintro _ p₁ ⟨hp₁, ha₁⟩
      have hv₁ : p₁.verified? file = none := hp₁.unverified file (by simp [ha₁])
      refine check_ends.mono (fun _ _ _ => trivial) ?_
      rintro e p₂ (⟨rfl, hu⟩ | ⟨udts, f, _, _, rfl, rfl⟩)
      · obtain ⟨_, id, rfl⟩ := importedTypes_eq_error hu
        exact trail_of_file hentered.nodup hv₁ rfl rfl (fun _ _ _ h => by cases h)
      · exact trail_of_file hentered.nodup hv₁ rfl rfl (fun _ _ _ h => by cases h)

/-- A file that can be read has a text. -/
theorem mem_of_load {texts : List (String × String)}
    (h : load (.ofTexts texts) file = .ok source) : file ∈ texts.map (·.1) := by
  unfold load tokenize Library.ofTexts at h
  cases ht : texts.lookup file with
  | none => simp [ht] at h
  | some text =>
    have hmem := List.lookup_eq_some_iff.mp ht
    obtain ⟨before, after, rfl, _⟩ := hmem
    simp

end Project

/-- What a list is from a member on. -/
theorem dropWhile_eq_drop {l : List String} {a : String} (h : a ∈ l) :
    ∃ j, l[j]? = some a ∧ l.dropWhile (· != a) = l.drop j := by
  induction l with
  | nil => cases h
  | cons b l ih =>
    by_cases hb : b = a
    · exact ⟨0, by simp [hb], by simp [hb]⟩
    · obtain ⟨j, hj, hdrop⟩ := ih ((List.mem_cons.mp h).resolve_left (Ne.symm hb))
      exact ⟨j + 1, by simpa using hj, by simpa [hb] using hdrop⟩

/-- A compile error names a path of imports. If a file of a finite library cannot be compiled on a new
project, then the chain of the error begins with the file, its files are all different, and it ends
with the file at fault; each file imports the next at the place and under the name that are recorded,
and all its imports before that place are verified; no file of the chain is verified. Where the fault
is a circular import, the cycle is the end of the chain from some file on, and that file again: the
last file of the chain imports it at the recorded place. -/
theorem error_names_import_path (texts : List (String × String)) (file : String)
    {e : ProjectError} {p : Project}
    (h : Project.compile (.ofTexts texts) file .empty = .error e p) :
    e.chain.head? = some file ∧ e.chain.Nodup ∧ e.chain.getLast? = some e.rootCause.file ∧
    e.hops.map (·.file) = e.chain.dropLast ∧ e.hops.map (·.target) = e.chain.tail ∧
    (∀ hop ∈ e.hops, hop.At (.ofTexts texts) p) ∧
    (∀ g ∈ e.chain, p.verified? g = none) ∧
    ∀ g pos cycle, e.rootCause = .circular g pos cycle →
      ∃ j target, e.chain[j]? = some target ∧ cycle = e.chain.drop j ++ [target] ∧
        Hop.At (.ofTexts texts) p ⟨g, pos, target⟩ ∧
        cycle.head? = some target ∧ cycle.getLast? = some target ∧
        cycle.IsChain (Library.Imports (.ofTexts texts)) := by
  have hrun : Compile.fileWithin (.ofTexts texts) (texts.length + 1) file .empty = .error e p := h
  have hempty : Project.Pending .empty := ⟨List.nodup_nil, fun _ hf => by cases hf⟩
  have hfiles : ∀ f source, Project.load (.ofTexts texts) f = .ok source → f ∈ texts.map (·.1) :=
    fun _ _ => Project.mem_of_load
  have htrail : Trail (.ofTexts texts) [] file e p :=
    (Project.fileWithin_trail hfiles (texts.length + 1) hempty (fun _ hf => by cases hf)
      (by simp [Project.empty]) (by simp [Project.empty])).error hrun
  refine ⟨by rw [e.head?_chain, htrail.file], by simpa using htrail.nodup, e.getLast?_chain,
    e.map_file_hops, htrail.targets, htrail.hops, htrail.unverified, fun g pos cycle hroot => ?_⟩
  obtain ⟨target, hmem, hcycle, hat⟩ := htrail.cycle g pos cycle hroot
  rw [List.nil_append] at hmem hcycle
  obtain ⟨j, hj, hdrop⟩ := dropWhile_eq_drop hmem
  have hchain : (e.chain.drop j).IsChain (Library.Imports (.ofTexts texts)) :=
    (ProjectError.isChain_chain htrail.targets fun hop hh => (htrail.hops hop hh).imports).drop j
  have hlast : ∀ last ∈ (e.chain.drop j).getLast?, last = g := by
    intro last hl
    rw [List.getLast?_drop] at hl
    split at hl
    · cases hl
    · rw [e.getLast?_chain, hroot] at hl
      exact (Option.some.inj hl).symm
  refine ⟨j, target, hj, by rw [hcycle, hdrop], hat, ?_, by rw [hcycle, List.getLast?_concat], ?_⟩
  · rw [hcycle, hdrop, List.head?_append, List.head?_drop, hj, Option.some_or]
  · rw [hcycle, hdrop, List.isChain_append]
    refine ⟨hchain, .singleton _, fun last hl next hn => ?_⟩
    obtain rfl : target = next := by simpa using hn
    rw [hlast last hl]
    exact hat.imports

/-- A library in which the second import of the main file leads into a cycle. -/
def cycleBelow : Library :=
  .ofTexts [("main", "import \"fine\"; import \"a\";"), ("fine", ""),
    ("a", "import \"b\";"), ("b", "import \"fine\"; import \"a\";")]

/-- The error leads to the second file of the cycle, which imports the first one again. -/
theorem error_names_import_path_cycleBelow :
    ∃ e p, Project.compile cycleBelow "main" .empty = .error e p ∧ e.chain = ["main", "a", "b"] ∧
      e.rootCause = .circular "b" ⟨1, 16⟩ ["a", "b", "a"] ∧
      e.hops = [⟨"main", ⟨1, 16⟩, "a"⟩, ⟨"a", ⟨1, 1⟩, "b"⟩] ∧
      (∀ hop ∈ e.hops, hop.At cycleBelow p) ∧ (∀ g ∈ e.chain, p.verified? g = none) ∧
      Hop.At cycleBelow p ⟨"b", ⟨1, 16⟩, "a"⟩ := by
  have hrun : (failure? (Project.compile cycleBelow "main" .empty)).any (fun r =>
      r.1 == .imported "main" ⟨1, 16⟩ "a" (.imported "a" ⟨1, 1⟩ "b"
        (.circular "b" ⟨1, 16⟩ ["a", "b", "a"]))) = true := by decide +kernel
  obtain ⟨⟨e, p⟩, hfailure, he⟩ := (Option.any_eq_true _ _).mp hrun
  obtain rfl := eq_of_beq he
  have h := failure?_eq_some.mp hfailure
  obtain ⟨_, _, _, _, _, hhops, hunverified, hcycle⟩ := error_names_import_path _ "main" h
  obtain ⟨j, target, _, _, hat, _, hlast, _⟩ := hcycle _ _ _ rfl
  obtain rfl : "a" = target := by simpa using hlast
  exact ⟨_, p, h, rfl, rfl, rfl, hhops, hunverified, hat⟩

end StoragePlan
