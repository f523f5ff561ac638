import StoragePlan.Check.File
import StoragePlan.Proofs.Declarations

/-!
Scopes come and go. A block is checked in a scope of its own: if it succeeds, storage and symbol
tables are exactly what they were; if it fails, they are so again once the open scopes are closed.
The same holds of the body of a function, and from it follows what the check of a file leaves.
-/

namespace StoragePlan

namespace Registry

variable {r : Registry} {file : String}

theorem depth_openScope {t : SymbolTable} (h : r.table? file = some t) :
    (r.openScope file).depth file = r.depth file + 1 := by
  unfold openScope depth
  rw [table?_onTable (f := (·.openScope)) (fun _ => rfl), h]
  rfl

/-- One scope more is closed by closing the others first. -/
theorem closeTo_eq_closeScope {d : Nat} (h : d + 1 ≤ r.depth file) :
    r.closeTo file d = (r.closeTo file (d + 1)).closeScope file := by
  unfold closeTo closeScope
  rw [onTable_onTable (f := (·.closeTo (d + 1))) (fun _ => rfl)]
  apply onTable_congr
  intro t ht
  rw [depth, ht] at h
  exact SymbolTable.closeTo_eq_closeScope h

/-- The symbols of a scope go when the scope closes. -/
theorem closeScope_grow_openScope (ss : List Symbol) :
    ((r.openScope file).onTable file (·.grow ss)).closeScope file = r := by
  unfold openScope closeScope
  rw [onTable_onTable (f := (·.grow ss)) (fun t => t.file_grow ss),
    onTable_onTable (f := (·.openScope)) (fun _ => rfl)]
  exact onTable_id

theorem tables_closeScope_congr {r' : Registry} (h : r'.tables = r.tables) :
    (r'.closeScope file).tables = (r.closeScope file).tables := by
  simp only [closeScope, onTable, h]

end Registry

namespace Check

variable {s s' : Session} {bs : List Binding}

/-- The session with one more scope. -/
def opened (s : Session) : Session :=
  { s with memory := s.memory.openScope, names := s.names.openScope s.file }

theorem openScope_ends {done : Unit → Session → Prop} {failed : SemanticFault → Session → Prop}
    (h : done () (opened s)) : Ends openScope s done failed :=
  Ends.bind (Ends.modify (Ends.modify h))

/-- What was declared in a scope is gone when the scope is closed. -/
theorem closeScope_ends (h : Grown bs (opened s) s') (hb : s.body.isSome = true) :
    Ends closeScope s' (fun _ s'' => Grown [] s s'') (fun _ _ => False) := by
  refine Ends.modify ?_
  have hm : s'.memory = s.memory.openScope.gain true bs := by
    rw [h.memory]
    simp only [opened, hb]
  have ht : (s'.names.closeScope s'.file).tables = s.names.tables := by
    rw [Registry.tables_closeScope_congr h.tables, h.file]
    exact congrArg Registry.tables (Registry.closeScope_grow_openScope _)
  exact {
    file := h.file
    memory := by
      rw [Tracker.gain_nil]
      simp only [hm, Tracker.gain, Tracker.closeScope_grow_openScope]
    tables := by
      rw [ht]
      simp [Registry.onTable, updateFirst_id]
    types := h.types
    body := by
      obtain ⟨ps, hps⟩ := h.body
      refine ⟨ps ++ s'.memory.closeScope.1, ?_⟩
      simp only [hps, opened]
      cases s.body <;> simp [Body.release]
    frames := h.frames
    udts := by
      have hu := h.udts
      simp only [opened, hb, if_true] at hu
      simpa using hu
    sound := fun _ b hb => by cases hb
    distinct := fun hn => by simp [hn] at hb
    shapes := fun _ hn => by
      simpa only [hm, Tracker.gain, Tracker.closeScope_grow_openScope] using hn
    fits := fun hf => by
      simpa only [hm, Tracker.gain, Tracker.closeScope_grow_openScope] using hf }

/-- What a step has left that failed, if closing its scopes restores everything. -/
structure Unwound (s s' : Session) : Prop where
  file : s'.file = s.file
  types : s.names.types.Grown s'.names.types
  remains : Remains [] [] [] s s'

theorem Unwound.failed (h : Unwound s s') : Failed s s' := ⟨h.file, h.types, [], [], [], h.remains⟩

/-- A failure inside of a scope leaves nothing outside of it. -/
theorem Failed.unwound (h : Failed (opened s) s') (hb : s.body.isSome = true) : Unwound s s' where
  file := h.file
  types := h.types
  remains := by
    obtain ⟨es, us, ss, hr⟩ := h.remains
    have hm := hr.memory
    have hd := hr.deeper
    simp only [opened, hb, Tracker.depth_openScope] at hm hd
    have hn : (s'.names.closeTo s.file (s.names.depth s.file)).tables = s.names.tables ∧
        s.names.depth s.file ≤ s'.names.depth s.file := by
      have ht := hr.tables
      have hf := hr.further
      simp only [opened] at ht hf
      cases h₀ : s.names.table? s.file with
      | none =>
        have ho : s.names.openScope s.file = s.names := Registry.onTable_of_none h₀
        rw [ho] at ht hf
        rw [Registry.onTable_of_none h₀] at ht
        exact ⟨ht, hf⟩
      | some t =>
        rw [Registry.depth_openScope h₀] at ht hf
        refine ⟨?_, Nat.le_of_succ_le hf⟩
        rw [Registry.closeTo_eq_closeScope hf, Registry.tables_closeScope_congr ht,
          Registry.closeScope_grow_openScope]
    refine ⟨?_, Nat.le_of_succ_le hd, ?_, hn.2, fun _ => ⟨[], rfl, rfl, by simp⟩, fun h => ?_⟩
    · rw [Tracker.closeTo_eq_closeScope hd, hm, Tracker.closeScope_grow_openScope, Tracker.grow_nil]
    · rw [hn.1]
      simp [Registry.onTable, updateFirst_id]
    · simp [h] at hb

/-- A step in a scope of its own. -/
theorem scoped_ends {x : Check Unit} (hx : Grows true x) (hb : s.body.isSome = true) :
    Ends (do
      openScope
      x
      closeScope) s (fun _ s' => Grown [] s s') (fun _ s' => Unwound s s') := by
  refine Ends.bind (openScope_ends ?_)
  refine (hx (opened s) hb).seq (fun _ _ hf => hf.unwound hb) fun _ s₁ ⟨bs, h⟩ => ?_
  exact (closeScope_ends h hb).mono (fun _ _ h => h) (fun _ _ h => h.elim)

/-! ### Statements -/

theorem notes_condition (e : Expr) : Notes (condition e) := by
  refine (notes_value e).bind fun t => ?_
  split
  · exact .pure _
  · exact .fail _ _

theorem notes_assignment (target : Expr) (op : Token) (source : Expr) :
    Notes (assignment target op source) := by
  refine (notes_value target).bind fun t => (notes_ofExcept _).bind fun root => ?_
  refine (notes_ofExcept _).bind fun id => (notes_lookup? id).bind fun x => ?_
  split
  · exact .fail _ _
  · refine (notes_value source).bind fun v => ?_
    split
    · exact .pure _
    · exact .fail _ _

theorem notes_ret (token : Token) (result : Option Expr) : Notes (ret token result) := by
  refine notes_get.bind fun s => ?_
  split
  · exact .fail _ _
  · split
    · exact .pure _
    · exact .fail _ _
    · exact .fail _ _
    · refine (notes_value _).bind fun t => ?_
      split
      · exact .pure _
      · exact .fail _ _

theorem grows_localVariable (d : VariableDecl) : Grows true (localVariable d) := fun _ hs =>
  (localVariable_ends d hs).mono (fun _ _ ⟨b, h, _⟩ => ⟨[b], h⟩) (fun _ _ h => .of_grown h)

theorem grows_constant (inner : Bool) (d : ConstantDecl) : Grows inner (constant d) := fun _ _ =>
  (constant_ends d).mono (fun _ _ ⟨b, h, _⟩ => ⟨[b], h⟩) (fun _ _ h => .of_grown h)

theorem grows_pushParameter (f : Field) : Grows true (pushParameter f) := fun _ hs =>
  (pushParameter_ends f hs).mono (fun _ _ ⟨b, h, _⟩ => ⟨[b], h⟩) (fun _ _ h => .of_grown h)

mutual

theorem grows_stmt : ∀ st : Stmt, Grows true (stmt st)
  | .varDecl d => by
    rw [stmt]
    exact grows_localVariable d
  | .constDecl d => by
    rw [stmt]
    exact grows_constant true d
  | .typeDef d => by
    rw [stmt]
    exact grows_types true [d]
  | .assign target op source => by
    rw [stmt]
    exact (notes_assignment target op source).grows
  | .expr e => by
    rw [stmt]
    exact ((notes_expr e).bind fun _ => .pure ()).grows
  | .branch _ c thenBlock none => by
    rw [stmt]
    exact (notes_condition c).grows.bind fun _ => grows_block thenBlock
  | .branch _ c thenBlock (some elseBlock) => by
    rw [stmt]
    refine (notes_condition c).grows.bind fun _ => ?_
    exact (grows_block thenBlock).bind fun _ => grows_block elseBlock
  | .loop _ c body => by
    rw [stmt]
    exact (notes_condition c).grows.bind fun _ => grows_block body
  | .ret token result => by
    rw [stmt]
    exact (notes_ret token result).grows
  | .block b => by
    rw [stmt]
    exact grows_block b

theorem grows_block : ∀ b : Block, Grows true (block b)
  | ⟨_, _, body⟩ => by
    intro s hs
    rw [block]
    exact (scoped_ends (grows_stmts body) hs).mono (fun _ _ h => ⟨[], h⟩) (fun _ _ h => h.failed)

theorem grows_stmts : ∀ body : List Stmt, Grows true (stmts body)
  | [] => by
    rw [stmts]
    exact (Notes.pure ()).grows
  | st :: rest => by
    rw [stmts]
    exact (grows_stmt st).bind fun _ => grows_stmts rest

end

/-- A block restores what it found. -/
theorem block_ends (b : Block) (hs : s.body.isSome = true) :
    Ends (block b) s (fun _ s' => Grown [] s s') (fun _ s' => Unwound s s') := by
  obtain ⟨o, c, body⟩ := b
  rw [block]
  exact scoped_ends (grows_stmts body) hs

end Check

end StoragePlan
