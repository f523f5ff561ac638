import Mathlib.Logic.Relation
import StoragePlan.Project.Basic
import StoragePlan.Proofs.Files

/-!
How a project moves. Compiling a file is a walk of a few kinds of steps: a file becomes active, a
verified file is linked to it as one of its imports, and at last the file itself is verified; or
something fails and the file is no longer active. Every invariant of projects is an invariant of
these steps.
-/

namespace StoragePlan

namespace Project

variable {lib : Library} {p p' p'' : Project} {file : String} {source : SourceFile}

/-- The project in which `file` has become the last of the active files. -/
def entered (file : String) (p : Project) : Project :=
  { p with names := p.names.addFile file, active := p.active ++ [file] }

/-- The project in which `file` is known to import another file. -/
def linked (file imported : String) (p : Project) : Project :=
  { p with names := p.names.addOuter file imported }

/-- The project in which the last of the active files is no longer active. -/
def left (p : Project) : Project := { p with active := p.active.dropLast }

/-- Storage while a file is checked: the types of its imports are active. -/
def storageWith (udts : List Udt) (p : Project) : Tracker :=
  udts.foldl (fun m u => m.addUdt u) p.memory.openScope

/-- The check of a file among the types of its imports. -/
def checked (file : String) (source : SourceFile) (udts : List Udt) (p : Project) : Checked :=
  verify file (p.storageWith udts) p.names source

/-- The project after the check of a file. -/
def settled (c : Checked) (p : Project) : Project :=
  { p with memory := c.memory.closeScope.2, names := c.names }

/-- The project with one more verified file. -/
def accepted (v : VerifiedFile) (p : Project) : Project := { p with verified := p.verified ++ [v] }

/-- All that is done when the check of a file begins. -/
structure Ready (lib : Library) (file : String) (source : SourceFile) (udts : List Udt)
    (p : Project) : Prop where
  active : p.active.getLast? = some file
  loaded : load lib file = .ok source
  verified : ∀ i ∈ source.imports, (p.verified? i.file).isSome
  linked : ∀ i ∈ source.imports, i.file ∈ p.importsOf file
  types : p.importedTypes file [] [] source.imports = .ok udts

/-- A step of a compilation that goes well. -/
inductive Advance (lib : Library) : Project → Project → Prop where
  | enter {p : Project} {file : String} (hv : p.verified? file = none) (ha : file ∉ p.active) :
    Advance lib p (p.entered file)
  | link {p : Project} {file : String} {source : SourceFile} {i : Import}
    (ha : p.active.getLast? = some file) (hl : load lib file = .ok source)
    (hi : i ∈ source.imports) (hv : (p.verified? i.file).isSome) :
    Advance lib p (p.linked file i.file)
  | finish {p : Project} {file : String} {source : SourceFile} {udts : List Udt}
    {v : VerifiedFile} (hr : Ready lib file source udts p)
    (hv : (p.checked file source udts).result = .ok v) :
    Advance lib p ((p.settled (p.checked file source udts)).left.accepted v)

/-- A step on the way out of a compilation that fails. -/
inductive Setback (lib : Library) : Project → Project → Prop where
  | fail {p : Project} {file : String} {source : SourceFile} {udts : List Udt}
    {f : SemanticFault} (hr : Ready lib file source udts p)
    (hf : (p.checked file source udts).result = .error f) :
    Setback lib p (p.settled (p.checked file source udts)).left
  | leave (p : Project) : Setback lib p p.left

def Step (lib : Library) (p p' : Project) : Prop := Advance lib p p' ∨ Setback lib p p'

abbrev Advances (lib : Library) : Project → Project → Prop := Relation.ReflTransGen (Advance lib)

abbrev Steps (lib : Library) : Project → Project → Prop := Relation.ReflTransGen (Step lib)

theorem Advances.steps (h : Advances lib p p') : Steps lib p p' :=
  h.lift id fun _ _ => .inl

/-! ### What stays -/

/-- What was verified and linked remains so. -/
structure Later (p p' : Project) : Prop where
  verified : p.verified <+: p'.verified
  tables : ∀ file, (p.names.table? file).isSome → (p'.names.table? file).isSome
  outer : ∀ file, p.importsOf file <+: p'.importsOf file

theorem Later.refl (p : Project) : Later p p :=
  ⟨List.prefix_refl _, fun _ h => h, fun _ => List.prefix_refl _⟩

theorem Later.trans (h : Later p p') (h' : Later p' p'') : Later p p'' :=
  ⟨h.verified.trans h'.verified, fun file => h'.tables file ∘ h.tables file,
    fun file => (h.outer file).trans (h'.outer file)⟩

theorem Later.verified? (h : Later p p') {v : VerifiedFile} (hv : p.verified? file = some v) :
    p'.verified? file = some v := by
  obtain ⟨more, hm⟩ := h.verified
  rw [Project.verified?, ← hm, List.find?_append]
  rw [Project.verified?] at hv
  rw [hv, Option.some_or]

theorem Later.isSome_verified? (h : Later p p') (hv : (p.verified? file).isSome) :
    (p'.verified? file).isSome := by
  obtain ⟨v, hv⟩ := Option.isSome_iff_exists.mp hv
  rw [h.verified? hv]
  rfl

theorem Later.verified?_eq_none (h : Later p p') (hv : p'.verified? file = none) :
    p.verified? file = none := by
  rw [← Option.not_isSome_iff_eq_none] at hv ⊢
  exact fun hs => hv (h.isSome_verified? hs)

end Project

namespace Registry

variable {r : Registry} {file other : String}

theorem table?_addFile : (r.addFile file).table? other =
    (r.table? other).or (if other = file then some (.ofFile file) else none) := by
  unfold addFile
  split
  · next t ht =>
    split
    · next ho => rw [ho, ht, Option.some_or]
    · rw [Option.or_none]
  · next ht =>
    simp only [table?, List.find?_append]
    congr 1
    by_cases ho : other = file
    · simp [SymbolTable.ofFile, ho]
    · simp [SymbolTable.ofFile, ho, Ne.symm ho]

theorem table?_addFile_of_ne (h : other ≠ file) :
    (r.addFile file).table? other = r.table? other := by
  rw [table?_addFile, if_neg h, Option.or_none]

theorem table?_of_addFile {t : SymbolTable} (h : (r.addFile file).table? other = some t) :
    r.table? other = some t ∨ other = file ∧ t = .ofFile file := by
  rw [table?_addFile, Option.or_eq_some_iff] at h
  rcases h with h | ⟨_, h⟩
  · exact .inl h
  · split at h
    · next ho => exact .inr ⟨ho, (Option.some.inj h).symm⟩
    · cases h

/-- A file whose table is there needs no other. -/
theorem addFile_of_isSome (h : (r.table? file).isSome) : r.addFile file = r := by
  obtain ⟨t, ht⟩ := Option.isSome_iff_exists.mp h
  simp [addFile, ht]

end Registry

namespace Project

variable {lib : Library} {p p' p'' : Project} {file : String} {source : SourceFile}
  {udts : List Udt}

theorem importsOf_entered (other : String) : (p.entered file).importsOf other = p.importsOf other := by
  unfold importsOf entered
  rw [Registry.table?_addFile]
  cases p.names.table? other with
  | some t => rfl
  | none =>
    rw [Option.none_or]
    split <;> rfl

theorem later_entered : Later p (p.entered file) where
  verified := List.prefix_refl _
  tables other h := by
    obtain ⟨t, ht⟩ := Option.isSome_iff_exists.mp h
    simp only [entered, Registry.table?_addFile, ht, Option.some_or, Option.isSome_some]
  outer other := importsOf_entered (p := p) other ▸ List.prefix_refl _

theorem importsOf_linked (imported other : String) : (p.linked file imported).importsOf other =
    if other = file ∧ (p.names.table? file).isSome ∧ imported ∉ p.importsOf file
    then p.importsOf file ++ [imported] else p.importsOf other := by
  unfold importsOf linked Registry.addOuter
  by_cases ho : other = file
  · subst ho
    rw [Registry.table?_onTable (SymbolTable.file_addOuter imported)]
    cases p.names.table? other with
    | none => simp
    | some t =>
      simp only [Option.map_some, Option.getD_some, SymbolTable.addOuter, List.contains_eq_mem,
        decide_eq_true_eq, Option.isSome_some, true_and]
      by_cases hm : imported ∈ t.outer <;> simp [hm]
  · rw [Registry.table?_onTable_of_ne (SymbolTable.file_addOuter imported) ho]
    simp [ho]

theorem mem_importsOf_linked (ht : (p.names.table? file).isSome) (imported : String) :
    imported ∈ (p.linked file imported).importsOf file := by
  rw [importsOf_linked]
  by_cases hm : imported ∈ p.importsOf file <;> simp [hm, ht]

theorem later_linked (imported : String) : Later p (p.linked file imported) where
  verified := List.prefix_refl _
  tables other h := by
    unfold linked Registry.addOuter
    by_cases ho : other = file
    · subst ho
      rw [Registry.table?_onTable (SymbolTable.file_addOuter imported)]
      simpa using h
    · rwa [Registry.table?_onTable_of_ne (SymbolTable.file_addOuter imported) ho]
  outer other := by
    rw [importsOf_linked]
    split
    · next h =>
      rw [h.1]
      exact List.prefix_append _ _
    · exact List.prefix_refl _

theorem dataSegment_storageWith (udts : List Udt) (p : Project) :
    (p.storageWith udts).dataSegment = p.memory.dataSegment := by
  rw [storageWith, Tracker.foldl_addUdt false]
  simp [Tracker.grow, Tracker.openScope]

/-- The globals that the check of a file leaves stay in the project; the types go. -/
theorem memory_settled {es : List Element} {us : List Udt} {ss : List Symbol}
    (hl : Left es us ss file (p.storageWith udts) p.names (p.checked file source udts)) :
    (p.settled (p.checked file source udts)).memory = p.memory.grow false es [] := by
  have hm : (p.checked file source udts).memory =
      p.memory.openScope.grow false es (us ++ udts.reverse) := by
    rw [hl.memory, storageWith, Tracker.foldl_addUdt false, Tracker.grow_grow, List.append_nil]
  rw [settled, hm, Tracker.closeScope_grow_false]

/-- What the check of a file leaves to the project: globals and symbols. -/
theorem settled_left (p : Project) (file : String) (source : SourceFile) (udts : List Udt) :
    ∃ es us ss, Left es us ss file (p.storageWith udts) p.names (p.checked file source udts) ∧
      (p.settled (p.checked file source udts)).memory = p.memory.grow false es [] := by
  obtain ⟨es, us, ss, hl⟩ := verify_left file (p.storageWith udts) p.names source
  exact ⟨es, us, ss, hl, memory_settled hl⟩

/-- A check changes no imports. -/
theorem importsOf_settled (other : String) :
    (p.settled (p.checked file source udts)).importsOf other = p.importsOf other := by
  obtain ⟨es, us, ss, hl⟩ := verify_left file (p.storageWith udts) p.names source
  have he : (p.entered file).importsOf other = p.importsOf other := importsOf_entered other
  unfold importsOf settled at *
  simp only [checked, Registry.table?_congr hl.tables]
  rw [← he]
  simp only [entered]
  by_cases ho : other = file
  · subst ho
    rw [Registry.table?_onTable (fun t => t.file_grow ss)]
    cases (p.names.addFile other).table? other <;> simp
  · rw [Registry.table?_onTable_of_ne (fun t => t.file_grow ss) ho]

theorem isSome_table?_settled (other : String) (h : (p.names.table? other).isSome) :
    ((p.settled (p.checked file source udts)).names.table? other).isSome := by
  obtain ⟨es, us, ss, hl⟩ := verify_left file (p.storageWith udts) p.names source
  have hg : ((p.names.addFile file).table? other).isSome := later_entered.tables other h
  simp only [settled, checked, Registry.table?_congr hl.tables]
  by_cases ho : other = file
  · subst ho
    rw [Registry.table?_onTable (fun t => t.file_grow ss)]
    simpa using hg
  · rwa [Registry.table?_onTable_of_ne (fun t => t.file_grow ss) ho]

theorem later_settled : Later p (p.settled (p.checked file source udts)) :=
  ⟨List.prefix_refl _, isSome_table?_settled,
    fun other => importsOf_settled other ▸ List.prefix_refl _⟩

theorem later_left : Later p p.left :=
  ⟨List.prefix_refl _, fun _ h => h, fun _ => List.prefix_refl _⟩

theorem later_accepted (v : VerifiedFile) : Later p (p.accepted v) :=
  ⟨List.prefix_append _ _, fun _ h => h, fun _ => List.prefix_refl _⟩

theorem Advance.later (h : Advance lib p p') : Later p p' := by
  cases h with
  | enter hv ha => exact later_entered
  | link ha hl hi hv => exact later_linked _
  | finish hr hv => exact (later_settled.trans later_left).trans (later_accepted _)

theorem Advances.later (h : Advances lib p p') : Later p p' := by
  induction h with
  | refl => exact .refl p
  | tail _ h ih => exact ih.trans h.later

theorem Step.later (h : Step lib p p') : Later p p' := by
  rcases h with h | h
  · exact h.later
  · cases h with
    | fail hr hf => exact later_settled.trans later_left
    | leave => exact later_left

/-- What every step keeps, any number of steps keeps. -/
theorem Steps.keep {P : Project → Prop} (hstep : ∀ p p', P p → Step lib p p' → P p')
    (h : Steps lib p p') (hp : P p) : P p' := by
  induction h with
  | refl => exact hp
  | tail _ hs ih => exact hstep _ _ ih hs

theorem Steps.later (h : Steps lib p p') : Later p p' :=
  h.keep (fun _ _ hl hs => hl.trans hs.later) (.refl p)

/-! ### Runs -/

open Compile

/-- Where the fault of a file comes from: its types clash with those of its imports, or its check has
failed after all went well so far. -/
def Origin (lib : Library) (p : Project) (e : ProjectError) : Prop :=
  ∀ file f, e.rootCause = .semantic file f → ∃ q source, Advances lib p q ∧
    (q.importedTypes file [] [] source.imports = .error (.semantic file f) ∨
      ∃ udts, Ready lib file source udts q ∧ (q.checked file source udts).result = .error f)

theorem Origin.of_advances {e : ProjectError} (h : Advances lib p p') (ho : Origin lib p' e) :
    Origin lib p e := by
  intro file f he
  obtain ⟨q, source, hq, hc⟩ := ho file f he
  exact ⟨q, source, h.trans hq, hc⟩

/-- A file that cannot be loaded is not checked. -/
theorem load_not_semantic {e : ProjectError} (h : load lib file = .error e) (g : String)
    (f : SemanticFault) : e.rootCause ≠ .semantic g f := by
  intro he
  unfold load tokenize at h
  split at h
  · next ht =>
    split at ht
    · cases ht
      cases h
      cases he
    · split at ht
      · cases ht
        cases h
        cases he
      · cases ht
  · split at h
    · cases h
      cases he
    · cases h

theorem origin_of_load {e : ProjectError} (h : load lib file = .error e) : Origin lib p e :=
  fun g f he => absurd he (load_not_semantic h g f)

/-- What the run of a compilation does: it walks, and the active files are again what they were. -/
def Walks (lib : Library) (file : String) (x : Compile Unit) (p : Project) : Prop :=
  Ends x p
    (fun _ p' => Advances lib p p' ∧ p'.active = p.active ∧ (p'.verified? file).isSome)
    (fun e p' => Steps lib p p' ∧ p'.active = p.active ∧ Origin lib p e)

theorem ofExcept_ends {α : Type} (x : Except ProjectError α) :
    Ends (Compile.ofExcept x) p (fun a p' => p' = p ∧ x = .ok a)
      (fun e p' => p' = p ∧ x = .error e) := by
  cases x with
  | ok a => exact Ends.pure ⟨rfl, rfl⟩
  | error e => exact Ends.throw ⟨rfl, rfl⟩

theorem wrapping_ends {i : Import} {x : Compile Unit} {done : Unit → Project → Prop}
    {failed : ProjectError → Project → Prop}
    (h : Ends x p done fun e p' => failed (.imported file i.token.position i.file e) p') :
    Ends (wrapping file i x) p done failed := by
  unfold Ends wrapping at *
  cases hx : x p <;> simpa only [hx] using h

/-- The imports of a file: each is verified and linked. -/
theorem imports_ends {sub : String → Compile Unit}
    (hsub : ∀ p other, other ∉ p.active → Walks lib other (sub other) p)
    (hl : load lib file = .ok source) (is : List Import) (his : ∀ i ∈ is, i ∈ source.imports)
    (ha : p.active.getLast? = some file) (ht : (p.names.table? file).isSome) :
    Ends (imports sub file is) p
      (fun _ p' => Advances lib p p' ∧ p'.active = p.active ∧
        ∀ i ∈ is, (p'.verified? i.file).isSome ∧ i.file ∈ p'.importsOf file)
      (fun e p' => Steps lib p p' ∧ p'.active = p.active ∧ Origin lib p e) := by
  induction is generalizing p with
  | nil => exact Ends.pure ⟨.refl, rfl, by simp⟩
  | cons i is ih =>
    rw [List.forall_mem_cons] at his
    refine Ends.bind (Ends.get ?_)
    dsimp only
    split
    · exact Ends.throw ⟨.refl, rfl, fun _ _ he => by cases he⟩
    · next hc =>
      have hw : Walks lib i.file (wrapping file i (sub i.file)) p :=
        wrapping_ends (hsub p i.file (by simpa using hc))
      refine hw.seq (fun _ _ h => h) ?_
      rintro _ p₁ ⟨h₁, ha₁, hv₁⟩
      have ha₂ : (p₁.linked file i.file).active.getLast? = some file := ha₁ ▸ ha
      have h₂ : Advances lib p (p₁.linked file i.file) := h₁.tail (.link ha₂ hl his.1 hv₁)
      have ht₁ := h₁.later.tables file ht
      have ht₂ : ((p₁.linked file i.file).names.table? file).isSome :=
        (later_linked i.file).tables file ht₁
      refine Ends.bind (Ends.modify ?_)
      refine (ih his.2 ha₂ ht₂).mono ?_ ?_
      · rintro _ p₃ ⟨h₃, ha₃, hi₃⟩
        refine ⟨h₂.trans h₃, ha₃.trans ha₁, List.forall_mem_cons.mpr ⟨⟨?_, ?_⟩, hi₃⟩⟩
        · exact h₃.later.isSome_verified? hv₁
        · exact (h₃.later.outer file).subset (mem_importsOf_linked ht₁ i.file)
      · rintro _ p₃ ⟨h₃, ha₃, ho₃⟩
        exact ⟨(Advances.steps h₂).trans h₃, ha₃.trans ha₁, ho₃.of_advances h₂⟩

/-- The check of a file, step by step. -/
theorem check_ends :
    Ends (Compile.check file source) p
      (fun _ p' => ∃ udts v, p.importedTypes file [] [] source.imports = .ok udts ∧
        (p.checked file source udts).result = .ok v ∧
        p' = (p.settled (p.checked file source udts)).accepted v)
      (fun e p' =>
        (p' = p ∧ p.importedTypes file [] [] source.imports = .error e) ∨
        ∃ udts f, p.importedTypes file [] [] source.imports = .ok udts ∧
          (p.checked file source udts).result = .error f ∧ e = .semantic file f ∧
          p' = p.settled (p.checked file source udts)) := by
  refine Ends.bind (Ends.get ((ofExcept_ends _).seq (fun _ _ h => .inl h) ?_))
  rintro udts p ⟨rfl, hu⟩
  dsimp only
  split
  · next v hv => exact Ends.set ⟨udts, v, hu, hv, rfl⟩
  · next f hf => exact Ends.bind (Ends.set (Ends.throw (.inr ⟨udts, f, hu, hf, rfl, rfl⟩)))

theorem whileActive_ends {x : Compile Unit} {done : Unit → Project → Prop}
    {failed : ProjectError → Project → Prop}
    (h : Ends x { p with active := p.active ++ [file] } (fun u p' => done u p'.left)
      (fun e p' => failed e p'.left)) :
    Ends (whileActive file x) p done failed := by
  unfold Ends whileActive at *
  split at h
  · next hx =>
    rw [hx]
    exact h
  · next hx =>
    rw [hx]
    exact h

theorem file_of_checked {udts : List Udt} {v : VerifiedFile}
    (h : (p.checked file source udts).result = .ok v) : v.file = file := by
  obtain ⟨s, _, rfl⟩ := verify_result_ok h
  rfl

theorem verified?_accepted (v : VerifiedFile) (f : String) :
    (p.accepted v).verified? f = (p.verified? f).or (if f = v.file then some v else none) := by
  rw [Project.verified?, accepted, List.find?_append, List.find?_singleton, Project.verified?]
  simp only [beq_iff_eq, eq_comm (a := f)]

theorem isSome_verified?_accepted {v : VerifiedFile} (h : v.file = file) :
    ((p.accepted v).verified? file).isSome := by
  simp [verified?_accepted, h]

/-- Two types of one name are refused at the import that leads to the second. -/
theorem importedTypes_eq_error {visited : List String} {collected : List Udt} {is : List Import}
    {e : ProjectError} (h : p.importedTypes file visited collected is = .error e) :
    ∃ p id, e = .semantic file ⟨p, .nameInUse id⟩ := by
  induction is generalizing visited collected with
  | nil => cases h
  | cons i is ih =>
    unfold importedTypes at h
    split at h
    · next id _ =>
      cases h
      exact ⟨i.token.position, id, rfl⟩
    · exact ih h

/-- Compiling a file is a walk. -/
theorem fileWithin_walks (lib : Library) (n : Nat) {file : String} {p : Project}
    (ha : file ∉ p.active) : Walks lib file (fileWithin lib n file) p := by
  induction n generalizing file p with
  | zero => exact Ends.throw ⟨.refl, rfl, fun _ _ he => by cases he⟩
  | succ n ih =>
    refine Ends.bind (Ends.get ?_)
    split
    · next hv => exact Ends.pure ⟨.refl, rfl, hv⟩
    · next hv =>
      rw [Option.not_isSome_iff_eq_none] at hv
      refine (ofExcept_ends _).seq
        (fun e p' h => by rw [h.1]; exact ⟨.refl, rfl, origin_of_load h.2⟩) ?_
      rintro source p ⟨rfl, hl⟩
      have henter : Advances lib p (p.entered file) := .single (.enter hv ha)
      have ht : ((p.entered file).names.table? file).isSome := by
        simp [entered, Registry.table?_addFile]
      refine whileActive_ends (Ends.bind (Ends.modify ?_))
      refine (imports_ends (fun _ _ h => ih h) hl source.imports (fun _ h => h) (by simp [entered])
        ht).seq ?_ ?_
      · rintro _ p₁ ⟨h₁, ha₁, ho₁⟩
        refine ⟨((Advances.steps henter).trans h₁).tail (.inr (.leave p₁)), ?_,
          ho₁.of_advances henter⟩
        simp [left, ha₁, entered]
      · rintro _ p₁ ⟨h₁, ha₁, hi₁⟩
        have h₂ := henter.trans h₁
        have hlast : p₁.active.getLast? = some file := by simp [ha₁, entered]
        have hback : p₁.active.dropLast = p.active := by simp [ha₁, entered]
        refine check_ends.mono ?_ ?_
        · rintro _ _ ⟨udts, v, hu, hv, rfl⟩
          have hr : Ready lib file source udts p₁ :=
            ⟨hlast, hl, fun i hi => (hi₁ i hi).1, fun i hi => (hi₁ i hi).2, hu⟩
          exact ⟨h₂.tail (.finish hr hv), hback, isSome_verified?_accepted (file_of_checked hv)⟩
        · rintro _ _ (⟨rfl, hu⟩ | ⟨udts, f, hu, hf, rfl, rfl⟩)
          · refine ⟨(Advances.steps h₂).tail (.inr (.leave _)), hback, fun g f he => ?_⟩
            obtain ⟨_, id, rfl⟩ := importedTypes_eq_error hu
            cases he
            exact ⟨_, source, h₂, .inl hu⟩
          · have hr : Ready lib file source udts p₁ :=
              ⟨hlast, hl, fun i hi => (hi₁ i hi).1, fun i hi => (hi₁ i hi).2, hu⟩
            refine ⟨(Advances.steps h₂).tail (.inr (.fail hr hf)), hback, fun g f' he => ?_⟩
            cases he
            exact ⟨p₁, source, h₂, .inr ⟨udts, hr, hf⟩⟩

/-! ### Runs, one line at a time -/

section Lines

variable {sub : String → Compile Unit} {i : Import} {is : List Import}

theorem imports_of_active (sub : String → Compile Unit) (file : String) (is : List Import)
    (h : i.file ∈ p.active) : imports sub file (i :: is) p =
      .error (.circular file i.token.position (p.active.dropWhile (· != i.file) ++ [i.file])) p := by
  rw [imports, bind_get]
  rw [if_pos (by simpa using h)]
  rfl

theorem imports_of_error {e : ProjectError} (h : i.file ∉ p.active)
    (hs : sub i.file p = .error e p') : imports sub file (i :: is) p =
      .error (.imported file i.token.position i.file e) p' := by
  rw [imports, bind_get]
  rw [if_neg (by simpa using h)]
  exact bind_of_error (by simp only [wrapping, hs])

theorem imports_of_ok (h : i.file ∉ p.active) (hs : sub i.file p = .ok () p') :
    imports sub file (i :: is) p = imports sub file is (p'.linked file i.file) := by
  rw [imports, bind_get]
  rw [if_neg (by simpa using h)]
  have hwrap : wrapping file i (sub i.file) p = .ok () p' := by simp only [wrapping, hs]
  exact (bind_of_ok hwrap).trans (bind_of_ok rfl)

/-- The file is compiled in the project that has it as the last active one. -/
theorem fileWithin_of_load {n : Nat} (hv : p.verified? file = none)
    (hl : load lib file = .ok source) : fileWithin lib (n + 1) file p =
      match (do
        imports (fileWithin lib n) file source.imports
        Compile.check file source) (p.entered file) with
      | .ok u q => .ok u q.left
      | .error e q => .error e q.left := by
  rw [fileWithin, bind_get, hv, hl]
  rfl

theorem fileWithin_of_unread {n : Nat} {e : ProjectError} (hv : p.verified? file = none)
    (hl : load lib file = .error e) : fileWithin lib (n + 1) file p = .error e p := by
  rw [fileWithin, bind_get, hv, hl]
  rfl

theorem fileWithin_of_verified {n : Nat} (hv : (p.verified? file).isSome) :
    fileWithin lib (n + 1) file p = .ok () p := by
  rw [fileWithin, bind_get, if_pos hv]
  rfl

end Lines

end Project

end StoragePlan
