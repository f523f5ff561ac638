import StoragePlan.Proofs.Bytes
import StoragePlan.Proofs.Restoration

/-!
Compiling only adds. Whatever an attempt to compile does, and whether it fails or not, verified files,
globals and interned types stay where they are and new ones come after them; and the table of a file
that is verified does not change any more, since a check writes to the table of its own file only and
that file is not verified yet.
-/

namespace StoragePlan

/-- The check of a file changes the table of no other file. -/
theorem verify_table?_of_ne {file other : String} (h : other ≠ file) (memory : Tracker)
    (names : Registry) (source : SourceFile) :
    (verify file memory names source).names.table? other = names.table? other := by
  obtain ⟨es, us, ss, hl⟩ := verify_left file memory names source
  rw [Registry.table?_congr hl.tables, Registry.table?_onTable_of_ne (fun t => t.file_grow ss) h,
    Registry.table?_addFile_of_ne h]

namespace Project

variable {lib : Library} {p p' p'' : Project} {file : String} {source : SourceFile}
  {udts : List Udt}

/-- All that a project had is still there, at the same places. -/
structure Extends (p p' : Project) : Prop where
  verified : p.verified <+: p'.verified
  globals : p.memory.globals <+: p'.memory.globals
  types : p.names.types.Grown p'.names.types
  tables : ∀ f, (p.verified? f).isSome → p'.names.table? f = p.names.table? f

theorem Extends.refl (p : Project) : Extends p p :=
  ⟨List.prefix_refl _, List.prefix_refl _, .refl _, fun _ _ => rfl⟩

theorem Extends.isSome_verified? (h : Extends p p') (hv : (p.verified? file).isSome) :
    (p'.verified? file).isSome := by
  obtain ⟨more, hm⟩ := h.verified
  simp only [Project.verified?, ← hm, List.find?_append, Option.isSome_or, Bool.or_eq_true]
  exact .inl hv

theorem Extends.trans (h : Extends p p') (h' : Extends p' p'') : Extends p p'' where
  verified := h.verified.trans h'.verified
  globals := h.globals.trans h'.globals
  types := h.types.trans h'.types
  tables f hf := (h'.tables f (h.isSome_verified? hf)).trans (h.tables f hf)

/-! ### Steps -/

theorem extends_entered (hv : p.verified? file = none) : Extends p (p.entered file) where
  verified := List.prefix_refl _
  globals := List.prefix_refl _
  types := by
    simp only [entered, Registry.types_addFile]
    exact .refl _
  tables f hf := by
    refine Registry.table?_addFile_of_ne ?_
    rintro rfl
    simp [hv] at hf

theorem extends_linked (hv : p.verified? file = none) (imported : String) :
    Extends p (p.linked file imported) where
  verified := List.prefix_refl _
  globals := List.prefix_refl _
  types := .refl _
  tables f hf := by
    refine Registry.table?_onTable_of_ne (SymbolTable.file_addOuter imported) ?_
    rintro rfl
    simp [hv] at hf

/-- The check of a file that is not verified yet, right or not. -/
theorem extends_settled (hv : p.verified? file = none) :
    Extends p (p.settled (p.checked file source udts)) := by
  obtain ⟨es, us, ss, hl, hm⟩ := settled_left p file source udts
  constructor
  case verified => exact List.prefix_refl _
  case globals =>
    have hdata : (p.settled (p.checked file source udts)).memory.dataSegment =
        p.memory.dataSegment ++ es.reverse := by rw [hm]; rfl
    rw [Tracker.globals, Tracker.globals, hdata, place_append_capped (Nat.zero_le _)]
    exact List.prefix_append _ _
  case types => exact hl.types
  case tables =>
    intro f hf
    refine verify_table?_of_ne ?_ _ _ _
    rintro rfl
    simp [hv] at hf

theorem extends_left (p : Project) : Extends p p.left :=
  ⟨List.prefix_refl _, List.prefix_refl _, .refl _, fun _ _ => rfl⟩

theorem extends_accepted (p : Project) (v : VerifiedFile) : Extends p (p.accepted v) :=
  ⟨List.prefix_append _ _, List.prefix_refl _, .refl _, fun _ _ => rfl⟩

/-- The file that a step is about is active, and so it is not verified yet. -/
theorem Step.extends (h : Step lib p p') (hp : Pending p) : Extends p p' := by
  rcases h with h | h
  · cases h with
    | enter hv ha => exact extends_entered hv
    | link ha hl hi hv => exact extends_linked (hp.unverified _ (List.mem_of_getLast? ha)) _
    | finish hr hv =>
      have hv := hp.unverified _ (List.mem_of_getLast? hr.active)
      exact ((extends_settled hv).trans (extends_left _)).trans (extends_accepted _ _)
  · cases h with
    | fail hr hf =>
      have hv := hp.unverified _ (List.mem_of_getLast? hr.active)
      exact (extends_settled hv).trans (extends_left _)
    | leave => exact extends_left p

theorem Steps.extends (h : Steps lib p p') (hp : Pending p) : Extends p p' := by
  have hkeep : Pending p' ∧ Extends p p' := by
    refine h.keep (P := fun q => Pending q ∧ Extends p q) ?_ ⟨hp, .refl p⟩
    rintro q q' ⟨hq, he⟩ hs
    exact ⟨hq.step hs, he.trans (hs.extends hq)⟩
  exact hkeep.2

theorem pending_idle (p : Project) : Pending p.idle :=
  ⟨List.nodup_nil, fun f hf => by simp [idle] at hf⟩

/-- An attempt to compile only adds, whatever the sources are by then. -/
theorem after_extends (lib : Library) (file : String) (p : Project) :
    Extends p (p.after lib file) := by
  have h := (after_steps lib file p).1.extends (pending_idle p)
  exact ⟨h.verified, h.globals, h.types, h.tables⟩

end Project

/-- Compiling only adds. After any attempts to compile, one more attempt with any sources, right or
not, leaves the verified files, the globals with their offsets and the interned types as the first
ones of the new lists, and the tables of verified files as they were. More generally the check of a
file changes no other file's table. -/
theorem compiling_only_adds :
    (∀ (calls : List (Library × String)) (lib : Library) (file : String),
      let p := Project.afterAll calls
      let p' := p.after lib file
      p.verified <+: p'.verified ∧
      p.memory.globals <+: p'.memory.globals ∧
      p.names.types.types <+: p'.names.types.types ∧
      ∀ f, (p.verified? f).isSome → p'.names.table? f = p.names.table? f) ∧
    (∀ (file other : String) (memory : Tracker) (names : Registry) (source : SourceFile),
      other ≠ file →
        (verify file memory names source).names.table? other = names.table? other) := by
  refine ⟨fun calls lib file => ?_, fun file other memory names source h => ?_⟩
  · have h := Project.after_extends lib file (Project.afterAll calls)
    exact ⟨h.verified, h.globals, h.types.entries, h.tables⟩
  · exact verify_table?_of_ne h memory names source

/-- A library with one file, of a type and a global of it. -/
def sharedShape : Library :=
  .ofTexts [("shape", "export type P \x7b x: u8, y: u16 \x7d export var origin: P;")]

/-- Another file builds a type and a global on those of the first, and then goes wrong. -/
def shapeUsed : Library :=
  .ofTexts [("shape", ""), ("main", "import \"shape\"; type Q \x7b p: P \x7d var q: Q; var r: u8 = c;")]

/-- The failed attempt has added `q` and its type behind what was there, and has left the table of the
first file alone. -/
theorem compiling_only_adds_shapeUsed :
    let p := Project.afterAll [(sharedShape, "shape")]
    let p' := p.after shapeUsed "main"
    (p.verified? "shape").isSome = true ∧ p'.verified.length = 1 ∧
    p.memory.globals <+: p'.memory.globals ∧
    p'.memory.globals.map (fun g => (g.element.label, g.offset)) = [("origin", 0), ("q", 3)] ∧
    p.names.types.types <+: p'.names.types.types ∧
    p.names.types.types.length = 3 ∧ p'.names.types.types.length = 4 ∧
    p'.names.table? "shape" = p.names.table? "shape" ∧
    ∀ source, (verify "main" p.memory p.names source).names.table? "shape" =
      p.names.table? "shape" := by
  have hverified : ((Project.afterAll [(sharedShape, "shape")]).verified? "shape").isSome = true := by
    decide +kernel
  obtain ⟨_, hglobals, htypes, htables⟩ :=
    compiling_only_adds.1 [(sharedShape, "shape")] shapeUsed "main"
  refine ⟨hverified, by decide +kernel, hglobals, by decide +kernel, htypes, by decide +kernel,
    by decide +kernel, htables "shape" hverified, fun source => ?_⟩
  exact compiling_only_adds.2 "main" "shape" _ _ source (by decide)

end StoragePlan
