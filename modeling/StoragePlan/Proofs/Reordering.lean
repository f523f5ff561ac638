import StoragePlan.Proofs.Insertions
import StoragePlan.Proofs.ImportPath
import StoragePlan.Proofs.RightFiles
import StoragePlan.Proofs.Sameness

/-!
The order of declarations does not matter. When a compilation has gone well, the files can be compiled
again from texts with the same items in other orders. Imports in another order are followed in another
order, but an import still comes before the file that imports it; so when a file is checked again all that
it needs is there, and it is right again. The names of types are the exception: no type may have the name
of a function, a variable or a constant of another file, because which of the two is refused, and whether
any is, depends on which file comes first.
-/

namespace StoragePlan

open Relation Project Compile

/-- What a file needs stands at a smaller index. -/
theorem Ranked.idxOf_lt {needs : String → String → Prop} {files : List String} {file other : String}
    (h : Ranked needs files) (hf : file ∈ files) (hn : needs file other) :
    files.idxOf other < files.idxOf file := by
  obtain ⟨before, after, hsplit, hnew⟩ := List.eq_append_cons_of_mem hf
  have hother : other ∈ before := h before file after hsplit other hn
  rw [hsplit, List.idxOf_append_of_mem hother, List.idxOf_append_of_notMem hnew, List.idxOf_cons_self]
  exact Nat.lt_of_lt_of_le (List.idxOf_lt_length_of_mem hother) (Nat.le_add_right _ _)

namespace Library

variable {lib lib' : Library} {file : String}

theorem Reordered.clash (h : lib.Reordered lib') (hc : lib.Clash file) : lib'.Clash file := by
  obtain ⟨f, f', u, u', hf, hf', hne, hu, hu', hid⟩ := hc
  exact ⟨f, f', u, u', h.leads hf, h.leads hf', hne, h.defines hu, h.defines hu', hid⟩

/-- Among the files that the imports lead to, no type of one has the name of a function, a variable or a
constant of another. -/
def NamesApart (lib : Library) (file : String) : Prop :=
  ∀ f f' id, ReflTransGen lib.Imports file f → ReflTransGen lib.Imports file f' → f ≠ f' →
    lib.HasType f id → ¬ lib.HasValue f' id

theorem Reordered.namesApart (h : lib.Reordered lib') (ha : lib.NamesApart file) :
    lib'.NamesApart file := fun f f' id hf hf' hne ht hv =>
  ha f f' id (h.symm.reaches hf) (h.symm.reaches hf') hne (h.symm.hasType ht) (h.symm.hasValue hv)

end Library

namespace Project

variable {lib lib' : Library} {g gf : List (String × Binding)} {p pf q q' : Project}
  {file o : String} {source : SourceFile} {udts : List Udt}

/-! ### The compilation that went well -/

/-- Every verified file was checked at some time, among the files that were verified before it. -/
theorem checked_of_verified (h : Advances lib .empty p) (ho : (p.verified? o).isSome) :
    ∃ p₀ source udts s, Advances lib .empty p₀ ∧ Ready lib o source udts p₀ ∧
      Check.file source (p₀.session o udts) = .ok () s ∧ Later p₀ p := by
  induction h with
  | refl => cases ho
  | @tail p p' hp hs ih =>
    have hl := hs.later
    cases hs with
    | enter hv ha =>
      obtain ⟨p₀, source, udts, s, h₀, hr, hrun, hl₀⟩ := ih ho
      exact ⟨p₀, source, udts, s, h₀, hr, hrun, hl₀.trans hl⟩
    | link ha hload hi hv =>
      obtain ⟨p₀, source, udts, s, h₀, hr, hrun, hl₀⟩ := ih ho
      exact ⟨p₀, source, udts, s, h₀, hr, hrun, hl₀.trans hl⟩
    | @finish file source udts v hr hv =>
      obtain ⟨s, hrun, rfl⟩ := verify_result_ok hv
      by_cases hne : o = file
      · subst hne
        exact ⟨p, source, udts, s, hp, hr, hrun, hl⟩
      · rw [verified?_accepted, if_neg hne, Option.or_none] at ho
        obtain ⟨p₀, source, udts, s, h₀, hr, hrun, hl₀⟩ := ih ho
        exact ⟨p₀, source, udts, s, h₀, hr, hrun, hl₀.trans hl⟩

/-- In one verified file no function, variable or constant has the name of a type. -/
theorem separate_of_verified (h : Advances lib .empty p) (ho : (p.verified? o).isSome) {id : String}
    (ht : lib.HasType o id) : ¬ lib.HasValue o id := by
  rintro ⟨source, hl, i, hi, name, hname, hid⟩
  obtain ⟨p₀, source₀, udts, s, h₀, hr, hrun, _⟩ := checked_of_verified h ho
  obtain ⟨source₁, hl₁, d, hd, hid₁⟩ := ht
  obtain rfl : source = source₀ := Except.ok.inj (hl.symm.trans hr.loaded)
  obtain rfl : source = source₁ := Except.ok.inj (hl.symm.trans hl₁)
  obtain ⟨g, hp₀⟩ := (portrayed_empty lib).advances h₀
  exact Check.types_apart_items (hp₀.toBooked.start hr).table rfl hrun hd hi hname hid₁ hid

/-- What a compilation on a new project leaves, if it goes well. -/
theorem ended_of_compile (hrun : compile lib file .empty = .ok () p) (ha : lib.NamesApart file) :
    Advances lib .empty p ∧ (p.verified? file).isSome ∧ ∃ g, Ended lib g p := by
  have hwithin : fileWithin lib lib.limit file .empty = .ok () p := hrun
  obtain ⟨hadvances, _, hfile⟩ := (fileWithin_walks lib lib.limit (by simp [empty])).ok hwithin
  obtain ⟨hreached, _⟩ := (fileWithin_reached lib lib.limit file .empty).ok hwithin
  obtain ⟨g, hp⟩ := (portrayed_empty lib).advances hadvances
  have hreach : ∀ f, (p.verified? f).isSome → ReflTransGen lib.Imports file f := fun f hf =>
    (hreached f (mem_order.mpr hf)).resolve_left (by simp [order, empty])
  refine ⟨hadvances, hfile, g, hp, ?_, fun f f' id hf hf' ht => ?_⟩
  · have hafter : afterAll [(lib, file)] = p := by simp [afterAll, after, hrun]
    rw [← hafter]
    exact (afterAll_filled [(lib, file)]).bytesOf_le fun _ _ hm => hm.body
  · by_cases hne : f = f'
    · subst hne
      exact separate_of_verified hadvances hf ht
    · exact ha f f' id (hreach f hf) (hreach f' hf') hne ht

/-! ### The compilation from the other texts -/

/-- The check of a file that is right. -/
theorem check_of_ok {v : VerifiedFile} (hu : p.importedTypes file [] [] source.imports = .ok udts)
    (hv : (p.checked file source udts).result = .ok v) :
    Compile.check file source p = .ok () ((p.settled (p.checked file source udts)).accepted v) := by
  have hends : Ends (Compile.check file source) p _ _ := check_ends
  cases hrun : Compile.check file source p with
  | ok u p' =>
    obtain ⟨udts', v', hu', hv', rfl⟩ := hends.ok hrun
    cases hu.symm.trans hu'
    cases hv.symm.trans hv'
    rfl
  | error e p' =>
    obtain ⟨_, hu'⟩ | ⟨udts', f, hu', hf, _⟩ := hends.error hrun
    · cases hu.symm.trans hu'
    · cases hu.symm.trans hu'
      cases hv.symm.trans hf

/-- A compilation has come some way, on files that the end of the other knows. -/
structure Underway (lib : Library) (pf q : Project) : Prop where
  advances : Advances lib .empty q
  covered : ∀ f, (q.verified? f).isSome → (pf.verified? f).isSome

/-- The file comes before all active files in the order of the other compilation. -/
def Due (pf q : Project) (file : String) : Prop :=
  (pf.verified? file).isSome ∧ ∀ a ∈ q.active, pf.order.idxOf file < pf.order.idxOf a

theorem Due.not_active (h : Due pf q file) : file ∉ q.active :=
  fun hm => Nat.lt_irrefl _ (h.2 file hm)

/-- If all files that are due can be compiled, the imports of a file can. -/
theorem imports_again {sub : String → Compile Unit}
    (hwalk : ∀ q other, other ∉ q.active → Walks lib other (sub other) q) (hl : load lib file = .ok source)
    {is : List Import} (his : ∀ i ∈ is, i ∈ source.imports) (hlast : q.active.getLast? = some file)
    (hsub : ∀ i ∈ is, ∀ q, Underway lib pf q → Due pf q i.file →
      ∃ q', sub i.file q = .ok () q' ∧ Underway lib pf q')
    (hdue : ∀ i ∈ is, Due pf q i.file) (hq : Underway lib pf q) :
    ∃ q', imports sub file is q = .ok () q' ∧ Underway lib pf q' := by
  induction is generalizing q with
  | nil => exact ⟨q, rfl, hq⟩
  | cons i is ih =>
    rw [List.forall_mem_cons] at his hsub hdue
    obtain ⟨q₁, hrun, hq₁⟩ := hsub.1 q hq hdue.1
    obtain ⟨_, hactive, hverified⟩ := (hwalk q i.file hdue.1.not_active).ok hrun
    rw [imports_of_ok hdue.1.not_active hrun]
    refine ih his.2 (hactive ▸ hlast) hsub.2 (fun j hj => ⟨(hdue.2 j hj).1, fun a ha => ?_⟩) ⟨?_, ?_⟩
    · exact (hdue.2 j hj).2 a (hactive ▸ ha)
    · exact hq₁.advances.tail (.link (hactive ▸ hlast) hl his.1 hverified)
    · exact hq₁.covered

section Again

variable (hr : lib.Reordered lib') (he : Ended lib gf pf) (ha : Advances lib .empty pf)

include hr he ha

/-- A file whose imports are compiled is right again. -/
theorem check_file_again {source' : SourceFile} {n : Nat} (hfile : (pf.verified? file).isSome)
    (hl' : load lib' file = .ok source') (hlast : q.active.getLast? = some file)
    (ht : (q.names.table? file).isSome)
    (himports : imports (fileWithin lib' n) file source'.imports q = .ok () q') (hq' : Underway lib' pf q') :
    ∃ q₁, Compile.check file source' q' = .ok () q₁ ∧ Underway lib' pf q₁.left := by
  obtain ⟨p₀, source, udts, s, h₀, hready, hrun, hlater⟩ := checked_of_verified ha hfile
  obtain ⟨_, hactive, hlinked⟩ := (imports_ends (fun _ _ => fileWithin_walks lib' n) hl' source'.imports
    (fun _ h => h) hlast ht).ok himports
  obtain ⟨g, hp₀⟩ := (portrayed_empty lib).advances h₀
  obtain ⟨g', hp'⟩ := (portrayed_empty lib').advances hq'.advances
  have hverified : ∀ i ∈ source'.imports, (q'.verified? i.file).isSome := fun i hi => (hlinked i hi).1
  obtain ⟨udts', hu⟩ : ∃ udts', q'.importedTypes file [] [] source'.imports = .ok udts' := by
    rw [hp'.importedTypes_ok_iff hverified hl']
    have hnone := (hp₀.importedTypes_ok_iff hready.verified hready.loaded).mp ⟨udts, hready.types⟩
    exact fun hc => hnone (hr.symm.clash hc)
  have hready' : Ready lib' file source' udts' q' :=
    ⟨hactive ▸ hlast, hl', hverified, fun i hi => (hlinked i hi).2, hu⟩
  have hretraced : Retraced lib lib' g g' gf p₀ q' pf file source source' udts udts' :=
    ⟨⟨hr, hp₀, hp', hready, hready'⟩, he, hfile, fun _ => hlater.isSome_verified?, hq'.covered,
      Advances.steps h₀, Advances.steps hq'.advances⟩
  obtain ⟨t, hrun'⟩ := hretraced.file_again hrun
  have hchecked : (q'.checked file source' udts').result = .ok ⟨file, t.frames, t.types, t.udts⟩ := by
    rw [checked, verify_of_ok hrun']
  refine ⟨_, check_of_ok hu hchecked, hq'.advances.tail (.finish hready' hchecked), fun f hf => ?_⟩
  by_cases hne : f = file
  · exact hne ▸ hfile
  · refine hq'.covered f ?_
    change (((q'.settled (q'.checked file source' udts')).accepted _).verified? f).isSome at hf
    rwa [verified?_accepted, if_neg hne, Option.or_none] at hf

/-- Every file that is due can be compiled again. -/
theorem fileWithin_again (n : Nat) (hn : pf.order.idxOf file < n) (hdue : Due pf q file)
    (hq : Underway lib' pf q) :
    ∃ q', fileWithin lib' n file q = .ok () q' ∧ Underway lib' pf q' := by
  induction n generalizing file q with
  | zero => exact absurd hn (Nat.not_lt_zero _)
  | succ n ih =>
    by_cases hv : (q.verified? file).isSome
    · exact ⟨q, fileWithin_of_verified hv, hq⟩
    rw [Option.not_isSome_iff_eq_none] at hv
    obtain ⟨_, source, _, _, _, hready, _, _⟩ := checked_of_verified ha hdue.1
    obtain ⟨source', hl', hitems⟩ := (hr file).1 source hready.loaded
    have hranked : Ranked lib.Imports pf.order := ha.ranked Ranked.nil
    -- In the other compilation, too, the imports of the file came before it.
    have hbefore : ∀ i ∈ source'.imports,
        (pf.verified? i.file).isSome ∧ pf.order.idxOf i.file < pf.order.idxOf file := by
      intro i hi
      have himports : lib.Imports file i.file := hr.symm.imports ⟨source', hl', i, hi, rfl⟩
      exact ⟨he.portrayed.isSome_of_imports hdue.1 (.single himports),
        hranked.idxOf_lt (mem_order.mpr hdue.1) himports⟩
    have henter : Advance lib' q (q.entered file) := .enter hv hdue.not_active
    have hentered : Underway lib' pf (q.entered file) := ⟨hq.advances.tail henter, hq.covered⟩
    have hlast : (q.entered file).active.getLast? = some file := by simp [entered]
    have ht : ((q.entered file).names.table? file).isSome := by
      simp [entered, Registry.table?_addFile]
    have hnext : ∀ i ∈ source'.imports, Due pf (q.entered file) i.file := by
      refine fun i hi => ⟨(hbefore i hi).1, fun a hactive => ?_⟩
      rcases List.mem_append.mp hactive with hactive | hactive
      · exact (hbefore i hi).2.trans (hdue.2 a hactive)
      · exact List.mem_singleton.mp hactive ▸ (hbefore i hi).2
    obtain ⟨q₁, himports, hq₁⟩ := imports_again (fun _ _ => fileWithin_walks lib' n) hl'
      (fun _ h => h) hlast
      (fun i hi _ hq' hdue' => ih ((hbefore i hi).2.trans_le (Nat.le_of_lt_succ hn)) hdue' hq')
      hnext hentered
    obtain ⟨q₂, hcheck, hq₂⟩ := check_file_again hr he ha hdue.1 hl' hlast ht himports hq₁
    refine ⟨q₂.left, ?_, hq₂⟩
    rw [fileWithin_of_load hv hl', bind_of_ok himports, hcheck]

end Again

/-- What can be compiled can be compiled with the items of all files in other orders. -/
theorem compile_again (h : lib.Reordered lib') (ha : lib.NamesApart file)
    (hrun : compile lib file .empty = .ok () p) (hlimit : p.order.length ≤ lib'.limit) :
    ∃ q, compile lib' file .empty = .ok () q := by
  obtain ⟨hadvances, hfile, g, he⟩ := ended_of_compile hrun ha
  have hindex : p.order.idxOf file < lib'.limit :=
    (List.idxOf_lt_length_of_mem (mem_order.mpr hfile)).trans_le hlimit
  obtain ⟨q, hq, _⟩ := fileWithin_again h he hadvances lib'.limit hindex
    ⟨hfile, by simp [empty]⟩ ⟨.refl, by simp [empty, verified?]⟩
  exact ⟨q, hq⟩

/-- Every verified file has a text, also in the other library. -/
theorem length_order_le {texts : List (String × String)} (h : lib.Reordered (.ofTexts texts))
    (hp : Portrayed lib g p) : p.order.length ≤ texts.length := by
  have hsub : p.order ⊆ texts.map (·.1) := by
    intro f hf
    obtain ⟨source, us, hportrait⟩ := hp.portrait f (mem_order.mp hf)
    obtain ⟨source', hl', _⟩ := (h f).1 source hportrait.loaded
    exact mem_of_load hl'
  simpa using (List.subperm_of_subset hp.sorted.arranged.nodup hsub).length_le

end Project

/-- Acceptance does not depend on the order of declarations where types have names of their own. Let the
files of two maps of texts have the same items, each file in some order. If among the files that the
imports of `file` lead to no type of one file has the name of a function, a variable or a constant of
another, then `file` compiles on a new project from both maps or from neither. -/
theorem acceptance_of_reordered (texts texts' : List (String × String)) (file : String)
    (h : (Library.ofTexts texts).Reordered (.ofTexts texts'))
    (ha : (Library.ofTexts texts).NamesApart file) :
    (∃ p, Project.compile (.ofTexts texts) file .empty = .ok () p) ↔
      ∃ p, Project.compile (.ofTexts texts') file .empty = .ok () p := by
  have hmono : ∀ {texts texts' : List (String × String)},
      (Library.ofTexts texts).Reordered (.ofTexts texts') → (Library.ofTexts texts).NamesApart file →
      (∃ p, Project.compile (.ofTexts texts) file .empty = .ok () p) →
      ∃ p, Project.compile (.ofTexts texts') file .empty = .ok () p := by
    rintro texts texts' h ha ⟨p, hrun⟩
    obtain ⟨_, _, g, he⟩ := Project.ended_of_compile hrun ha
    exact Project.compile_again h ha hrun
      ((Project.length_order_le h he.portrayed).trans (Nat.le_succ _))
  exact ⟨hmono h ha, hmono h.symm (h.namesApart ha)⟩

/-- Where a type and a function of two files have one name, the order of the imports decides. -/
example :
    let a := ("a", "fn T() \x7b \x7d")
    let b := ("b", "type T \x7b x: u8 \x7d")
    let compiles (main : String) : Bool :=
      (success? (Project.compile (.ofTexts [("main", main), a, b]) "main" .empty)).isSome
    compiles "import \"a\"; import \"b\";" = false ∧
      compiles "import \"b\"; import \"a\";" = true := by
  decide +kernel

/-! ### Two files in two orders -/

namespace Library

/-- The names of the types of a file. -/
def typeNames (lib : Library) (file : String) : List String :=
  match Project.load lib file with
  | .ok source => source.types.filterMap (·.name.name?)
  | .error _ => []

/-- The names of the functions, variables and constants of a file. -/
def valueNames (lib : Library) (file : String) : List String :=
  match Project.load lib file with
  | .ok source => (source.items.filterMap Item.name?).filterMap Token.name?
  | .error _ => []

/-- Whether names are apart can be read off the texts. -/
theorem namesApart_ofTexts {texts : List (String × String)} (file : String)
    (h : ∀ f ∈ texts.map (·.1), ∀ f' ∈ texts.map (·.1), f ≠ f' →
      ∀ id ∈ (ofTexts texts).typeNames f, id ∉ (ofTexts texts).valueNames f') :
    (ofTexts texts).NamesApart file := by
  rintro f f' id - - hne ⟨source, hl, d, hd, hid⟩ ⟨source', hl', i, hi, t, ht, hid'⟩
  refine h f (Project.mem_of_load hl) f' (Project.mem_of_load hl') hne id ?_ ?_
  · rw [typeNames, hl]
    exact List.mem_filterMap.mpr ⟨d, hd, hid⟩
  · rw [valueNames, hl']
    exact List.mem_filterMap.mpr ⟨t, List.mem_filterMap.mpr ⟨i, hi, ht⟩, hid'⟩

/-- The items of a file but for places and numbers. -/
def form? (lib : Library) (file : String) : Option (List Item) :=
  match Project.load lib file with
  | .ok source => some (source.items.map Item.bare)
  | .error _ => none

/-- The items of one file in another order, and all other files as they were. -/
theorem reordered_of_file {lib lib' : Library} {file : String}
    (hfile : Option.Rel List.Perm (lib'.form? file) (lib.form? file))
    (hload : ∀ f, f ≠ file → lib'.load f = lib.load f) : lib.Reordered lib' := by
  intro f
  by_cases hf : f = file
  · subst hf
    unfold form? at hfile
    cases hl : Project.load lib f with
    | error e => cases hl' : Project.load lib' f <;> simp [hl, hl'] at hfile ⊢
    | ok source =>
      cases hl' : Project.load lib' f with
      | error e => simp [hl, hl'] at hfile
      | ok source' => simpa [hl, hl', SourceFile.Reorders] using hfile
  · have hsame : Project.load lib' f = Project.load lib f := by
      unfold Project.load Project.tokenize
      rw [hload f hf]
    rw [hsame]
    exact Reordered.refl lib f

end Library

/-- Two files, the first of which uses what stands later in it. -/
def pointsTexts : List (String × String) :=
  [("main", "fn f(p: P) \x7b v; \x7d var v: P[2]; import \"base\";"),
    ("base", "export type P \x7b x: u8 \x7d")]

/-- The same files with the items of the one the other way around. -/
def pointsTextsReversed : List (String × String) :=
  [("main", "import \"base\"; var v: P[2]; fn f(p: P) \x7b v; \x7d"),
    ("base", "export type P \x7b x: u8 \x7d")]

/-- Both orders are accepted. -/
theorem acceptance_of_reordered_points :
    (∃ p, Project.compile (.ofTexts pointsTexts) "main" .empty = .ok () p) ∧
      ∃ p, Project.compile (.ofTexts pointsTextsReversed) "main" .empty = .ok () p := by
  have hmain : (Library.ofTexts pointsTextsReversed).form? "main" =
      ((Library.ofTexts pointsTexts).form? "main").map List.reverse := by decide +kernel
  have hform : Option.Rel List.Perm ((Library.ofTexts pointsTextsReversed).form? "main")
      ((Library.ofTexts pointsTexts).form? "main") := by
    rw [hmain]
    cases (Library.ofTexts pointsTexts).form? "main" with
    | none => exact .none
    | some is => exact .some is.reverse_perm
  have hreordered : (Library.ofTexts pointsTexts).Reordered (.ofTexts pointsTextsReversed) := by
    refine Library.reordered_of_file hform fun f hf => ?_
    have hother : (f == "main") = false := by simpa using hf
    simp [Library.ofTexts, pointsTexts, pointsTextsReversed, List.lookup_cons, hother]
  have hapart : (Library.ofTexts pointsTexts).NamesApart "main" :=
    Library.namesApart_ofTexts "main" (by decide +kernel)
  have hrun : (success? (Project.compile (.ofTexts pointsTexts) "main" .empty)).isSome := by
    decide +kernel
  obtain ⟨p, hp⟩ := Option.isSome_iff_exists.mp hrun
  have hok : ∃ p, Project.compile (.ofTexts pointsTexts) "main" .empty = .ok () p :=
    ⟨p, success?_eq_some.mp hp⟩
  exact ⟨hok, (acceptance_of_reordered _ _ "main" hreordered hapart).mp hok⟩

end StoragePlan
