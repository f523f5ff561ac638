import Mathlib.Data.List.Dedup
import StoragePlan.Proofs.ImportPath
import StoragePlan.Proofs.ImportedTypes

/-!
Compiling ends on every graph of imports. The functions of a project count down a bound; the relations
here say what compiling a file and collecting types do without any bound, so a run exists only if it is
finite. Compiling comes to an end because the active files are all different and all have a text, and
collecting types because a file puts its imports on the list once; with that the bounds of the functions
are never met.
-/

namespace StoragePlan

open Compile

/-- How a compilation ends, and with which project. -/
abbrev Ending := EStateM.Result ProjectError Project Unit

namespace Ending

def project : Ending → Project
  | .ok _ p => p
  | .error _ p => p

/-- The file that was compiled is no longer active. -/
def left : Ending → Ending
  | .ok u p => .ok u p.left
  | .error e p => .error e p.left

end Ending

/-- What a compilation is made of: files, and the imports of a file that is active. -/
inductive Job where
  | file (file : String)
  | imports (file : String) (rest : List Import)

/-- A job is done from a project and ends as told. The number says how many calls for files are nested in
each other, and the list holds the project at every call and after every change. -/
inductive Runs (lib : Library) : Nat → List Project → Job → Project → Ending → Prop where
  | known {p : Project} {file : String} (hv : (p.verified? file).isSome) :
    Runs lib 1 [p] (.file file) p (.ok () p)
  | unread {p : Project} {file : String} {e : ProjectError} (hv : p.verified? file = none)
    (hl : Project.load lib file = .error e) : Runs lib 1 [p] (.file file) p (.error e p)
  | unchecked {n : Nat} {trace : List Project} {p q : Project} {file : String} {source : SourceFile}
    {e : ProjectError} (hv : p.verified? file = none) (hl : Project.load lib file = .ok source)
    (hi : Runs lib n trace (.imports file source.imports) (p.entered file) (.error e q)) :
    Runs lib (n + 1) (p :: trace ++ [q.left]) (.file file) p (.error e q.left)
  | checked {n : Nat} {trace : List Project} {p q : Project} {file : String} {source : SourceFile}
    (hv : p.verified? file = none) (hl : Project.load lib file = .ok source)
    (hi : Runs lib n trace (.imports file source.imports) (p.entered file) (.ok () q)) :
    Runs lib (n + 1) (p :: trace ++ [Ending.project (check file source q),
      Ending.project (Ending.left (check file source q))]) (.file file) p
      (Ending.left (check file source q))
  | done {p : Project} {file : String} : Runs lib 0 [p] (.imports file []) p (.ok () p)
  | circular {p : Project} {file : String} {i : Import} {is : List Import} (hc : i.file ∈ p.active) :
    Runs lib 0 [p] (.imports file (i :: is)) p
      (.error (.circular file i.token.position (p.active.dropWhile (· != i.file) ++ [i.file])) p)
  | stopped {n : Nat} {trace : List Project} {p q : Project} {file : String} {i : Import}
    {is : List Import} {e : ProjectError} (hc : i.file ∉ p.active)
    (hf : Runs lib n trace (.file i.file) p (.error e q)) :
    Runs lib n (p :: trace) (.imports file (i :: is)) p
      (.error (.imported file i.token.position i.file e) q)
  | next {n m : Nat} {trace trace' : List Project} {p q : Project} {file : String} {i : Import}
    {is : List Import} {r : Ending} (hc : i.file ∉ p.active)
    (hf : Runs lib n trace (.file i.file) p (.ok () q))
    (hi : Runs lib m trace' (.imports file is) (q.linked file i.file) r) :
    Runs lib (max n m) (p :: trace ++ trace') (.imports file (i :: is)) p r

/-- The files that can become active. -/
structure Project.Sourced (files : List String) (p : Project) : Prop where
  nodup : p.active.Nodup
  subset : ∀ f ∈ p.active, f ∈ files

/-- A job that can be met: a file is not active when it is called for. -/
def Job.New (p : Project) : Job → Prop
  | .file f => f ∉ p.active
  | .imports _ _ => True

/-- A job as the functions do it, with the bound `n`. -/
def Job.within (lib : Library) (n : Nat) : Job → Compile Unit
  | .file f => fileWithin lib n f
  | .imports f is => Compile.imports (fileWithin lib n) f is

namespace Project

variable {lib : Library} {files : List String} {p : Project} {file : String} {source : SourceFile}

theorem active_check : (Ending.project (check file source p)).active = p.active := by
  cases hr : check file source p with
  | ok u q =>
    obtain ⟨udts, v, _, _, rfl⟩ := check_ends.ok hr
    rfl
  | error e q =>
    rcases check_ends.error hr with ⟨rfl, _⟩ | ⟨udts, f, _, _, _, rfl⟩ <;> rfl

theorem Sourced.length_le (h : Sourced files p) : p.active.length ≤ files.length :=
  List.Nodup.length_le_of_subset h.nodup h.subset

theorem Sourced.of_active {q : Project} (h : Sourced files p) (ha : q.active = p.active) :
    Sourced files q := ⟨ha ▸ h.nodup, ha ▸ h.subset⟩

theorem Sourced.entered (h : Sourced files p) (hn : file ∉ p.active) (hf : file ∈ files) :
    Sourced files (p.entered file) where
  nodup := by
    refine List.nodup_append.mpr ⟨h.nodup, by simp, fun a ha b hb heq => hn ?_⟩
    rwa [← List.mem_singleton.mp hb, ← heq]
  subset := List.forall_mem_append.mpr ⟨h.subset, by simpa using hf⟩

end Project

theorem Ending.active_left {r : Ending} {active : List String} {file : String}
    (h : r.project.active = active ++ [file]) : r.left.project.active = active := by
  cases r <;> simp_all [Ending.left, Ending.project, Project.left]

namespace Runs

open Project

variable {lib : Library} {files : List String} {n m : Nat} {trace : List Project} {job : Job}
  {p : Project} {r : Ending}

/-- After a job the active files are again what they were. -/
theorem active (h : Runs lib n trace job p r) : r.project.active = p.active := by
  induction h with
  | known | unread | done | circular => rfl
  | @unchecked _ _ p q file source e _ _ _ ih => exact Ending.active_left (r := .error e q) ih
  | checked _ _ _ ih => exact Ending.active_left (active_check.trans ih)
  | stopped _ _ ih => exact ih
  | next _ _ _ ihf ihi => exact ihi.trans ihf

/-- At every moment the active files are all different and have a text. -/
theorem sourced (hfiles : ∀ f source, load lib f = .ok source → f ∈ files)
    (h : Runs lib n trace job p r) (hp : Sourced files p) (hnew : job.New p) :
    ∀ q ∈ trace, Sourced files q := by
  induction h with
  | known | unread | done | circular => simpa using hp
  | @unchecked n trace p q file source e hv hl hi ih =>
    have hend : Sourced files q.left := hp.of_active (Runs.active (.unchecked hv hl hi))
    have htrace := ih (hp.entered hnew (hfiles file source hl)) trivial
    exact List.forall_mem_append.mpr ⟨List.forall_mem_cons.mpr ⟨hp, htrace⟩, by simpa using hend⟩
  | @checked n trace p q file source hv hl hi ih =>
    have hentered := hp.entered hnew (hfiles file source hl)
    have hchecked : Sourced files (Ending.project (check file source q)) :=
      hentered.of_active (active_check.trans hi.active)
    have hend : Sourced files (Ending.project (Ending.left (check file source q))) :=
      hp.of_active (Runs.active (.checked hv hl hi))
    refine List.forall_mem_append.mpr ⟨List.forall_mem_cons.mpr ⟨hp, ih hentered trivial⟩, ?_⟩
    simpa using ⟨hchecked, hend⟩
  | stopped hc hf ih => exact List.forall_mem_cons.mpr ⟨hp, ih hp hc⟩
  | next hc hf hi ihf ihi =>
    refine List.forall_mem_append.mpr ⟨List.forall_mem_cons.mpr ⟨hp, ihf hp hc⟩, ?_⟩
    exact ihi (hp.of_active hf.active) trivial

/-- Calls are nested as deep as there are files that are not active yet, and one more. -/
theorem depth_le (hfiles : ∀ f source, load lib f = .ok source → f ∈ files)
    (h : Runs lib n trace job p r) (hp : Sourced files p) (hnew : job.New p) :
    n + p.active.length ≤ files.length + 1 := by
  induction h with
  | known | unread | done | circular =>
    have hle := hp.length_le
    omega
  | @unchecked n trace p q file source e hv hl hi ih =>
    have hbelow := ih (hp.entered hnew (hfiles file source hl)) trivial
    simp only [Project.entered, List.length_append, List.length_singleton] at hbelow
    omega
  | @checked n trace p q file source hv hl hi ih =>
    have hbelow := ih (hp.entered hnew (hfiles file source hl)) trivial
    simp only [Project.entered, List.length_append, List.length_singleton] at hbelow
    omega
  | stopped hc hf ih => exact ih hp hc
  | @next n m trace trace' p q file i is r hc hf hi ihf ihi =>
    have hfirst := ihf hp hc
    have hrest := ihi (hp.of_active hf.active) trivial
    have hactive : (q.linked file i.file).active.length = p.active.length :=
      congrArg List.length hf.active
    omega

/-- The functions do what a run says if their bound is not below its depth. -/
theorem eq_within (h : Runs lib n trace job p r) (hn : n ≤ m) : job.within lib m p = r := by
  induction h generalizing m with
  | known hv =>
    obtain ⟨m, rfl⟩ : ∃ k, m = k + 1 := ⟨m - 1, by omega⟩
    exact fileWithin_of_verified hv
  | unread hv hl =>
    obtain ⟨m, rfl⟩ : ∃ k, m = k + 1 := ⟨m - 1, by omega⟩
    exact fileWithin_of_unread hv hl
  | @unchecked _ _ p q file source e hv hl hi ih =>
    obtain ⟨m, rfl⟩ : ∃ k, m = k + 1 := ⟨m - 1, by omega⟩
    have himports : imports (fileWithin lib m) file source.imports (p.entered file) = .error e q :=
      ih (Nat.le_of_succ_le_succ hn)
    exact (fileWithin_of_load hv hl).trans (congrArg Ending.left (bind_of_error himports))
  | @checked _ _ p q file source hv hl hi ih =>
    obtain ⟨m, rfl⟩ : ∃ k, m = k + 1 := ⟨m - 1, by omega⟩
    have himports : imports (fileWithin lib m) file source.imports (p.entered file) = .ok () q :=
      ih (Nat.le_of_succ_le_succ hn)
    exact (fileWithin_of_load hv hl).trans (congrArg Ending.left (bind_of_ok himports))
  | done => rfl
  | circular hc => exact imports_of_active _ _ _ hc
  | stopped hc hf ih => exact imports_of_error hc (ih hn)
  | next hc hf hi ihf ihi =>
    have hfirst := ihf (Nat.le_trans (Nat.le_max_left _ _) hn)
    exact (imports_of_ok hc hfirst).trans (ihi (Nat.le_trans (Nat.le_max_right _ _) hn))

end Runs

/-! ### Runs exist -/

namespace Project

variable {lib : Library} {files : List String} {p : Project} {file : String}

/-- The imports of a file come to an end if every file does that is called for. -/
theorem imports_run (hsub : ∀ q other, q.active = p.active → other ∉ q.active →
      ∃ n trace r, Runs lib n trace (.file other) q r) (is : List Import) :
    ∃ n trace r, Runs lib n trace (.imports file is) p r := by
  induction is generalizing p with
  | nil => exact ⟨0, [p], _, .done⟩
  | cons i is ih =>
    by_cases hc : i.file ∈ p.active
    · exact ⟨0, [p], _, .circular hc⟩
    · obtain ⟨n, trace, r, hf⟩ := hsub p i.file rfl hc
      cases r with
      | error e q => exact ⟨n, _, _, .stopped hc hf⟩
      | ok u q =>
        have hactive : q.active = p.active := hf.active
        obtain ⟨m, trace', r, hi⟩ := ih (p := q.linked file i.file)
          fun q' other hq => hsub q' other (hq.trans hactive)
        exact ⟨max n m, _, r, .next hc hf hi⟩

/-- Every file comes to an end: with each file that becomes active there is one less to become so. -/
theorem file_run (hfiles : ∀ f source, load lib f = .ok source → f ∈ files) (hp : Sourced files p)
    (hn : file ∉ p.active) : ∃ n trace r, Runs lib n trace (.file file) p r := by
  induction hleft : files.length - p.active.length using Nat.strongRecOn generalizing p file with
  | ind left ih =>
    cases hv : p.verified? file with
    | some v => exact ⟨1, [p], _, .known (by simp [hv])⟩
    | none =>
      cases hl : load lib file with
      | error e => exact ⟨1, [p], _, .unread hv hl⟩
      | ok source =>
        have hentered := hp.entered hn (hfiles file source hl)
        have hless : files.length - (p.entered file).active.length < left := by
          have hle := hentered.length_le
          simp only [entered, List.length_append, List.length_singleton] at hle ⊢
          omega
        have himports : ∃ n trace r,
            Runs lib n trace (.imports file source.imports) (p.entered file) r := by
          refine imports_run (fun q other hq hother => ?_) source.imports
          exact ih _ hless (hentered.of_active hq) hother (by rw [hq])
        obtain ⟨n, trace, r, hi⟩ := himports
        cases r with
        | error e q => exact ⟨n + 1, _, _, .unchecked hv hl hi⟩
        | ok u q => exact ⟨n + 1, _, _, .checked hv hl hi⟩

end Project

/-! ### Types of imported files -/

/-- Collecting the types of the pending files takes so many turns and ends as told. -/
inductive Collects (p : Project) : Nat → (pending visited : List String) → List Udt →
    Except String (List String × List Udt) → Prop where
  | emptied {visited : List String} {collected : List Udt} :
    Collects p 0 [] visited collected (.ok (visited, collected))
  | again {n : Nat} {file : String} {pending visited : List String} {collected : List Udt}
    {r : Except String (List String × List Udt)} (hf : file ∈ visited)
    (h : Collects p n pending visited collected r) :
    Collects p (n + 1) (file :: pending) visited collected r
  | unverified {n : Nat} {file : String} {pending visited : List String} {collected : List Udt}
    {r : Except String (List String × List Udt)} (hf : file ∉ visited) (hv : p.verified? file = none)
    (h : Collects p n pending visited collected r) :
    Collects p (n + 1) (file :: pending) visited collected r
  | clash {file id : String} {pending visited : List String} {collected : List Udt}
    {v : VerifiedFile} (hf : file ∉ visited) (hv : p.verified? file = some v)
    (ha : Project.addTypes collected v.udts = .error id) :
    Collects p 1 (file :: pending) visited collected (.error id)
  | visit {n : Nat} {file : String} {pending visited : List String} {collected collected' : List Udt}
    {v : VerifiedFile} {r : Except String (List String × List Udt)} (hf : file ∉ visited)
    (hv : p.verified? file = some v) (ha : Project.addTypes collected v.udts = .ok collected')
    (h : Collects p n ((p.importsOf file).reverse ++ pending) (visited ++ [file]) collected' r) :
    Collects p (n + 1) (file :: pending) visited collected r

namespace Collects

open Project

variable {p : Project} {n m : Nat} {pending visited : List String} {collected : List Udt}
  {r : Except String (List String × List Udt)}

/-- The function does what a run says if its bound is not below the number of turns. -/
theorem eq_collectTypes (h : Collects p n pending visited collected r) (hn : n ≤ m) :
    collectTypes p m pending visited collected = r := by
  induction h generalizing m with
  | emptied => cases m <;> rfl
  | again hf _ ih =>
    obtain ⟨m, rfl⟩ : ∃ k, m = k + 1 := ⟨m - 1, by omega⟩
    simp only [collectTypes, List.contains_eq_mem, hf, decide_true, if_true]
    exact ih (Nat.le_of_succ_le_succ hn)
  | unverified hf hv _ ih =>
    obtain ⟨m, rfl⟩ : ∃ k, m = k + 1 := ⟨m - 1, by omega⟩
    simp only [collectTypes, List.contains_eq_mem, hf, decide_false, Bool.false_eq_true, if_false, hv]
    exact ih (Nat.le_of_succ_le_succ hn)
  | clash hf hv ha =>
    obtain ⟨m, rfl⟩ : ∃ k, m = k + 1 := ⟨m - 1, by omega⟩
    simp only [collectTypes, List.contains_eq_mem, hf, decide_false, Bool.false_eq_true, if_false, hv, ha]
  | visit hf hv ha _ ih =>
    obtain ⟨m, rfl⟩ : ∃ k, m = k + 1 := ⟨m - 1, by omega⟩
    simp only [collectTypes, List.contains_eq_mem, hf, decide_false, Bool.false_eq_true, if_false, hv, ha]
    exact ih (Nat.le_of_succ_le_succ hn)

end Collects

/-- Collecting types comes to an end whatever the files import: with every turn there is less on the list
and among the imports of the files that were not visited. -/
theorem Project.collects (p : Project) (pending visited : List String) (collected : List Udt) :
    ∃ n r, Collects p n pending visited collected r ∧
      n ≤ pending.length + unvisited visited p.names.tables := by
  induction hleft : pending.length + unvisited visited p.names.tables using Nat.strongRecOn
    generalizing pending visited collected with
  | ind left ih =>
    cases pending with
    | nil => exact ⟨0, _, .emptied, Nat.zero_le _⟩
    | cons file pending =>
      rw [List.length_cons] at hleft
      by_cases hf : file ∈ visited
      · obtain ⟨n, r, h, hn⟩ := ih _ (by omega) pending visited collected rfl
        exact ⟨n + 1, r, .again hf h, by omega⟩
      cases hv : p.verified? file with
      | none =>
        obtain ⟨n, r, h, hn⟩ := ih _ (by omega) pending visited collected rfl
        exact ⟨n + 1, r, .unverified hf hv h, by omega⟩
      | some v =>
        cases ha : addTypes collected v.udts with
        | error id => exact ⟨1, _, .clash hf hv ha, by omega⟩
        | ok collected' =>
          have hcount := unvisited_visit hf p
          have hlist : ((p.importsOf file).reverse ++ pending).length =
              (p.importsOf file).length + pending.length := by simp
          obtain ⟨n, r, h, hn⟩ := ih _ (by omega) ((p.importsOf file).reverse ++ pending)
            (visited ++ [file]) collected' rfl
          exact ⟨n + 1, r, .visit hf hv ha h, by omega⟩

/-- Compiling ends on every graph of imports. From any project whatsoever, a file of a finite library is
compiled by a run without bounds, and what the run ends with is what `compile` gives; calls for files are
nested at most one deeper than there are texts, and at every moment the active files are all different and
have a text. The types of imported files are collected in a number of turns that does not exceed the number
of links by more than one, whatever the links are. -/
theorem compiling_terminates (texts : List (String × String)) (file : String) (p : Project) :
    (∃ n trace, Runs (.ofTexts texts) n trace (.file file) p.idle
        (Project.compile (.ofTexts texts) file p) ∧
      n ≤ (texts.map (·.1)).dedup.length + 1 ∧
      ∀ q ∈ trace, q.active.Nodup ∧ ∀ f ∈ q.active, f ∈ texts.map (·.1)) ∧
    (∀ n trace r, Runs (.ofTexts texts) n trace (.file file) p.idle r →
      r = Project.compile (.ofTexts texts) file p) ∧
    ∀ (q : Project) (imported : String) (visited : List String) (collected : List Udt),
      ∃ n, Collects q n [imported] visited collected
          (q.collectTypes q.pendingLimit [imported] visited collected) ∧ n ≤ q.pendingLimit := by
  have hfiles : ∀ f source, Project.load (.ofTexts texts) f = .ok source →
      f ∈ (texts.map (·.1)).dedup := fun f source hl => List.mem_dedup.mpr (Project.mem_of_load hl)
  have hidle : Project.Sourced (texts.map (·.1)).dedup p.idle :=
    ⟨List.nodup_nil, fun f hf => by cases hf⟩
  have hnew : file ∉ p.idle.active := by simp [Project.idle]
  have hdepth : ∀ {n trace r}, Runs (.ofTexts texts) n trace (.file file) p.idle r →
      n ≤ (texts.map (·.1)).dedup.length + 1 := fun h => h.depth_le hfiles hidle hnew
  have hcompile : ∀ n trace r, Runs (.ofTexts texts) n trace (.file file) p.idle r →
      r = Project.compile (.ofTexts texts) file p := by
    intro n trace r h
    have hlimit : (texts.map (·.1)).dedup.length + 1 ≤ texts.length + 1 := by
      have hle := (List.dedup_sublist (texts.map (·.1))).length_le
      rw [List.length_map] at hle
      omega
    exact (h.eq_within (Nat.le_trans (hdepth h) hlimit)).symm
  refine ⟨?_, hcompile, fun q imported visited collected => ?_⟩
  · obtain ⟨n, trace, r, h⟩ := Project.file_run hfiles hidle hnew
    refine ⟨n, trace, hcompile n trace r h ▸ h, hdepth h, fun q hq => ?_⟩
    have hsourced := h.sourced hfiles hidle hnew q hq
    exact ⟨hsourced.nodup, fun f hf => List.mem_dedup.mp (hsourced.subset f hf)⟩
  · obtain ⟨n, r, h, hn⟩ := q.collects [imported] visited collected
    have hlimit : n ≤ q.pendingLimit := by
      have hle := Project.unvisited_le visited q.names.tables
      rw [List.length_singleton] at hn
      rw [Project.pendingLimit]
      omega
    refine ⟨n, ?_, hlimit⟩
    rw [h.eq_collectTypes hlimit]
    exact h

/-- A library in which a file imports itself after two others that import each other. -/
def tangled : Library :=
  .ofTexts [("main", "import \"a\"; import \"main\";"), ("a", "import \"b\";"), ("b", "import \"a\";")]

/-- The circle is met below the third call. -/
theorem compiling_terminates_tangled :
    ∃ n trace e p, Runs tangled n trace (.file "main") .empty (.error e p) ∧ n ≤ 4 ∧
      e.rootCause = .circular "b" ⟨1, 1⟩ ["a", "b", "a"] ∧
      ∀ q ∈ trace, q.active.Nodup ∧ ∀ f ∈ q.active, f ∈ ["main", "a", "b"] := by
  have hrun : (failure? (Project.compile tangled "main" .empty)).any (fun r =>
      r.1.rootCause == .circular "b" ⟨1, 1⟩ ["a", "b", "a"]) = true := by decide +kernel
  obtain ⟨⟨e, p⟩, hfailure, he⟩ := (Option.any_eq_true _ _).mp hrun
  obtain ⟨⟨n, trace, h, hn, hactive⟩, _⟩ := compiling_terminates
    [("main", "import \"a\"; import \"main\";"), ("a", "import \"b\";"), ("b", "import \"a\";")] "main"
    .empty
  have hcompile : Project.compile tangled "main" .empty = .error e p := failure?_eq_some.mp hfailure
  exact ⟨n, trace, e, p, hcompile ▸ h, hn, eq_of_beq he, hactive⟩

end StoragePlan
