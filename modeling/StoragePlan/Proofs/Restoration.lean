import StoragePlan.Proofs.Invariants

/-!
Scopes are exactly restored: by blocks and bodies of functions, by the check of a file whether it is
right or not, and by every compilation of a project.
-/

namespace StoragePlan

namespace Project

/-- The project after an attempt to compile a file, successful or not. -/
def after (lib : Library) (file : String) (p : Project) : Project :=
  match compile lib file p with
  | .ok _ p' => p'
  | .error _ p' => p'

/-- A new project after attempts to compile some files, in turn. -/
def afterAll (calls : List (Library × String)) : Project :=
  calls.foldl (fun p c => p.after c.1 c.2) empty

variable {lib : Library} {p p' : Project} {file : String}

/-- The project in which no file is active, as every attempt to compile begins. -/
def idle (p : Project) : Project := { p with active := [] }

theorem idle_of_active (h : p.active = []) : p.idle = p := by
  rw [idle, ← h]

/-- An attempt to compile is a walk that ends with no file active. -/
theorem after_steps (lib : Library) (file : String) (p : Project) :
    Steps lib p.idle (p.after lib file) ∧ (p.after lib file).active = [] := by
  have hends : Ends (compile lib file) p
      (fun _ p' => Steps lib p.idle p' ∧ p'.active = [])
      (fun _ p' => Steps lib p.idle p' ∧ p'.active = []) := by
    refine Ends.bind (Ends.modify ((fileWithin_walks lib lib.limit (by simp)).mono ?_ ?_))
    · rintro _ p' ⟨hs, ha, _⟩
      exact ⟨Advances.steps hs, ha⟩
    · exact fun _ p' h => ⟨h.1, h.2.1⟩
  unfold Project.after
  split
  · next hr => exact hends.ok hr
  · next hr => exact hends.error hr

theorem Quiet.after (h : Quiet p) (lib : Library) (file : String) : Quiet (p.after lib file) :=
  (h.of_eq rfl rfl : Quiet p.idle).steps (after_steps lib file p).1

/-- What a new project has and every attempt keeps, all attempts keep. -/
theorem afterAll_keep {P : Project → Prop} (hempty : P empty)
    (hafter : ∀ lib file p, P p → P (p.after lib file)) (calls : List (Library × String)) :
    P (afterAll calls) := by
  have hrun : ∀ p, P p → P (calls.foldl (fun p c => p.after c.1 c.2) p) := by
    induction calls with
    | nil => exact fun p h => h
    | cons c calls ih => exact fun p h => ih _ (hafter c.1 c.2 p h)
  exact hrun empty hempty

/-- Neither scopes nor active files are left by any attempts to compile. -/
theorem afterAll_quiet (calls : List (Library × String)) :
    Quiet (afterAll calls) ∧ (afterAll calls).active = [] :=
  afterAll_keep (P := fun p => Quiet p ∧ p.active = []) ⟨quiet_empty, rfl⟩
    (fun lib file p h => ⟨h.1.after lib file, (after_steps lib file p).2⟩) calls

end Project

/-! ### Scopes are restored -/

theorem Registry.depth_addFile (r : Registry) (file : String) :
    (r.addFile file).depth file = r.depth file := by
  unfold depth
  rw [table?_addFile]
  cases r.table? file <;> simp [SymbolTable.ofFile, SymbolTable.depth]

/-- The check of a file keeps the stack and the depth of the scopes, right or not. -/
theorem verify_restores (file : String) (memory : Tracker) (names : Registry)
    (source : SourceFile) :
    (verify file memory names source).memory.stack = memory.stack ∧
      (verify file memory names source).memory.depth = memory.depth ∧
      (verify file memory names source).names.depth file = names.depth file := by
  obtain ⟨es, us, ss, hl⟩ := verify_left file memory names source
  refine ⟨by rw [hl.memory, Tracker.stack_grow_false], by rw [hl.memory, Tracker.depth_grow], ?_⟩
  have hd : (verify file memory names source).names.depth file =
      ((names.addFile file).onTable file (·.grow ss)).depth file := by
    unfold Registry.depth
    rw [Registry.table?_congr hl.tables]
  rw [hd, Registry.depth_onTable_grow, Registry.depth_addFile]

/-- Scopes are exactly restored. A block that is right, inside of a function, and the body of a
function that is right leave storage and all symbol tables as they were. The check of a file leaves
the stack and the depths as they were, right or not; and so no attempt to compile leaves a scope, a
local, an active type or an active file. -/
theorem scopes_restored :
    (∀ (s s' : Session) (b : Block), s.body.isSome = true → Check.block b s = .ok () s' →
      s'.memory = s.memory ∧ s'.names.tables = s.names.tables) ∧
    (∀ (s s' : Session) (d : FunctionDef), s.body = none → Check.functionBody d s = .ok () s' →
      s'.memory = s.memory ∧ s'.names.tables = s.names.tables) ∧
    (∀ (file : String) (memory : Tracker) (names : Registry) (source : SourceFile),
      (verify file memory names source).memory.stack = memory.stack ∧
      (verify file memory names source).memory.depth = memory.depth ∧
      (verify file memory names source).names.depth file = names.depth file) ∧
    (∀ calls : List (Library × String),
      (Project.afterAll calls).memory.depth = 0 ∧ (Project.afterAll calls).memory.stack = [] ∧
      (Project.afterAll calls).memory.udts = [] ∧
      (∀ t ∈ (Project.afterAll calls).names.tables, t.depth = 0) ∧
      (Project.afterAll calls).active = []) := by
  refine ⟨fun s s' b hb hr => ?_, fun s s' d hb hr => ?_, verify_restores, fun calls => ?_⟩
  · have h := (Check.block_ends b hb).ok hr
    exact ⟨h.memory_eq, h.tables_eq⟩
  · have h := (Check.functionBody_ends d hb).ok hr
    exact ⟨h.memory_eq, h.tables_eq⟩
  · obtain ⟨h, ha⟩ := Project.afterAll_quiet calls
    refine ⟨by simp [Tracker.depth, h.scopes], h.stack, h.udts, fun t ht => ?_, ha⟩
    simp [SymbolTable.depth, h.tables t ht]

/-- The block `{ type P { x: u8 } var v: P; { const v: u8 = 7; } }`. -/
def nestedBlock : Block :=
  .mk ⟨1, 9⟩ ⟨1, 57⟩
    [.typeDef ⟨false, ⟨.name "P", ⟨1, 16⟩⟩,
      [⟨⟨.name "x", ⟨1, 20⟩⟩, ⟨⟨.primitive .u8, ⟨1, 23⟩⟩, []⟩⟩]⟩,
     .varDecl ⟨false, ⟨.name "v", ⟨1, 32⟩⟩, ⟨⟨.name "P", ⟨1, 35⟩⟩, []⟩, none⟩,
     .block (.mk ⟨1, 38⟩ ⟨1, 55⟩
      [.constDecl ⟨false, ⟨.name "v", ⟨1, 46⟩⟩, ⟨⟨.primitive .u8, ⟨1, 49⟩⟩, []⟩,
        .literal 0 ⟨.integer 7, ⟨1, 54⟩⟩⟩])]

/-- The block is right as the body of a function and inside of one, and is restored from. -/
theorem scopes_restored_nestedBlock :
    (∃ s', Check.functionBody ⟨false, ⟨.name "f", ⟨1, 4⟩⟩, [], none, nestedBlock⟩
        (.start "m" .empty .empty) = .ok () s' ∧
      s'.memory = .empty ∧ s'.names.tables = [.ofFile "m"]) ∧
    (∃ s', Check.block nestedBlock
        (Check.entered ⟨"f", none, []⟩ (.start "m" .empty .empty)) = .ok () s' ∧
      s'.memory = .empty ∧ s'.names.tables = [.ofFile "m"]) := by
  obtain ⟨s₁, h₁⟩ : ∃ s', Check.functionBody ⟨false, ⟨.name "f", ⟨1, 4⟩⟩, [], none, nestedBlock⟩
    (.start "m" .empty .empty) = .ok () s' := ⟨_, rfl⟩
  obtain ⟨s₂, h₂⟩ : ∃ s', Check.block nestedBlock
    (Check.entered ⟨"f", none, []⟩ (.start "m" .empty .empty)) = .ok () s' := ⟨_, rfl⟩
  exact ⟨⟨s₁, h₁, scopes_restored.2.1 _ _ _ rfl h₁⟩, ⟨s₂, h₂, scopes_restored.1 _ _ _ rfl h₂⟩⟩

end StoragePlan
