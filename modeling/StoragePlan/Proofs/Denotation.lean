import StoragePlan.Proofs.Moments

/-!
The frame of a function as its syntax gives it. The elements that a block declares itself lie on the
stack until the block ends; then they are released, the newest first, behind all that the blocks inside
of it have released. So a frame is built by recursion on the syntax, and `Lays` says of the check of
statements that stack and frame gain just what the recursion gives.
-/

namespace StoragePlan

/-! ### Frames of blocks -/

/-- The types that a statement makes active. -/
def Stmt.udts : Stmt → List Udt
  | .typeDef d => [d.udt]
  | _ => []

/-- The types that some statements make active, newest first. -/
def Stmt.udtsAll : List Stmt → List Udt
  | [] => []
  | st :: rest => Stmt.udtsAll rest ++ st.udts

/-- The element of a statement that declares a variable or constant among the types `us`. -/
def Stmt.own (us : List Udt) : Stmt → List Element
  | .varDecl d => [d.element us]
  | .constDecl d => [d.element us]
  | _ => []

/-- The elements that the statements of a block declare themselves, in the order of the text. -/
def Stmt.ownAll (us : List Udt) : List Stmt → List Element
  | [] => []
  | st :: rest => st.own us ++ Stmt.ownAll (st.udts ++ us) rest

/-- Elements in reverse, each at the offset of the bytes that were declared after it. -/
def laidOut : List Element → List Placed
  | [] => []
  | e :: rest => laidOut rest ++ [⟨e, bytesOf rest⟩]

mutual

/-- The frames of the blocks inside of a statement. -/
def Stmt.inside (us : List Udt) : Stmt → List Placed
  | .branch _ _ thenBlock none => thenBlock.frame us
  | .branch _ _ thenBlock (some elseBlock) => thenBlock.frame us ++ elseBlock.frame us
  | .loop _ _ body => body.frame us
  | .block b => b.frame us
  | .varDecl _ => []
  | .constDecl _ => []
  | .typeDef _ => []
  | .assign _ _ _ => []
  | .expr _ => []
  | .ret _ _ => []

/-- The frames of the blocks inside of a block, then its own elements. -/
def Block.frame (us : List Udt) : Block → List Placed
  | ⟨_, _, body⟩ => Stmt.insideAll us body ++ laidOut (Stmt.ownAll us body)

def Stmt.insideAll (us : List Udt) : List Stmt → List Placed
  | [] => []
  | st :: rest => st.inside us ++ Stmt.insideAll (st.udts ++ us) rest

end

/-- The elements that a function declares outside of inner blocks: first its parameters. -/
def FunctionDef.own (us : List Udt) (d : FunctionDef) : List Element :=
  d.params.map (·.element us) ++ Stmt.ownAll us d.body.body

/-- The frame of a function that is defined among the types `us`. -/
def FunctionDef.frame (us : List Udt) (d : FunctionDef) : Frame :=
  ⟨d.name.name?.getD "", Stmt.insideAll us d.body.body ++ laidOut (d.own us)⟩

mutual

/-- The names of the variables and constants that a statement declares, at whatever depth. -/
def Stmt.locals : Stmt → List Token
  | .varDecl d => [d.name]
  | .constDecl d => [d.name]
  | .branch _ _ thenBlock none => thenBlock.locals
  | .branch _ _ thenBlock (some elseBlock) => thenBlock.locals ++ elseBlock.locals
  | .loop _ _ body => body.locals
  | .block b => b.locals
  | .typeDef _ => []
  | .assign _ _ _ => []
  | .expr _ => []
  | .ret _ _ => []

def Block.locals : Block → List Token
  | ⟨_, _, body⟩ => Stmt.localsAll body

def Stmt.localsAll : List Stmt → List Token
  | [] => []
  | st :: rest => st.locals ++ Stmt.localsAll rest

end

/-- The names of the parameters, variables and constants of a function, in the order of the text. -/
def FunctionDef.locals (d : FunctionDef) : List Token :=
  d.params.map (·.name) ++ Stmt.localsAll d.body.body

theorem place_reverse {es : List Element} (h : bytesOf es ≤ wordLimit) :
    place 0 es.reverse = laidOut es := by
  induction es with
  | nil => rfl
  | cons e es ih =>
    rw [bytesOf_cons] at h
    rw [List.reverse_cons, place_append (by rw [bytesOf_reverse]; omega), ih (by omega),
      bytesOf_reverse, Nat.zero_add]
    rfl

@[simp] theorem map_element_laidOut (es : List Element) :
    (laidOut es).map (·.element) = es.reverse := by
  induction es with
  | nil => rfl
  | cons e es ih => simp [laidOut, ih]

/-! ### Stack and frame during a check -/

namespace Check

/-- Inside of a function, the stack gains the elements `es`, newest first, the types `us` become
active, and the frame gains the elements `ps`. All these have the names `ts`, each once. -/
structure Lays (es : List Element) (us : List Udt) (ps : List Placed) (ts : List Token)
    (s s' : Session) : Prop where
  memory : s'.memory = s.memory.grow true es us
  body : s'.body = s.body.map (·.release ps)
  names : (es.map (·.id) ++ ps.map (·.element.id)).Perm (ts.map (·.name?))

namespace Lays

variable {es es' : List Element} {us us' : List Udt} {ps ps' : List Placed} {ts ts' : List Token}
  {s s' s'' : Session}

theorem refl (s : Session) : Lays [] [] [] [] s s where
  memory := by simp
  body := by cases s.body <;> simp [Body.release]
  names := .refl _

theorem trans (h : Lays es us ps ts s s') (h' : Lays es' us' ps' ts' s' s'') :
    Lays (es' ++ es) (us' ++ us) (ps ++ ps') (ts ++ ts') s s'' where
  memory := by rw [h'.memory, h.memory, Tracker.grow_grow]
  body := by
    rw [h'.body, h.body]
    cases s.body <;> simp [Body.release]
  names := by
    -- The two halves of both sides interleave, so the names are counted one by one.
    rw [List.perm_iff_count]
    intro id
    have hcount := h.names.count_eq id
    have hcount' := h'.names.count_eq id
    simp only [List.map_append, List.count_append] at hcount hcount' ⊢
    omega

theorem udts (h : Lays es us ps ts s s') : s'.memory.udts = us ++ s.memory.udts := by
  rw [h.memory, Tracker.udts_grow]

theorem of_noted (h : Noted s s') : Lays [] [] [] [] s s' := by
  have hrefl := refl s
  exact ⟨by rw [h.memory_eq]; exact hrefl.memory, by rw [h.same]; exact hrefl.body, .refl _⟩

theorem of_shaped (h : Shaped us s s') (hb : s.body.isSome = true) : Lays [] us [] [] s s' where
  memory := by rw [h.memory, hb]
  body := by
    rw [h.body]
    exact (refl s).body
  names := .refl _

/-- A declaration of a value. -/
theorem of_values {b : Binding} {name : Token} {a : Annotation} {v : Int} (hg : Grown [b] s s')
    (hv : Values name (a.element s.memory.udts name v) s s' b) (hb : s.body.isSome = true) :
    Lays [a.element s.memory.udts name v] [] [] [name] s s' where
  memory := by simp [hg.memory, hb, Tracker.gain, Binding.element?, Binding.udt?, hv.holding]
  body := by
    rw [hv.body]
    exact (refl s).body
  names := by simp [nameOf_eq_ok hv.named, Annotation.element, Element.named]

/-- When a scope closes in which the stack fits, what it holds goes to the frame. -/
theorem close (h : Lays es.reverse us ps ts (opened s) s') (hf : s'.memory.Fits)
    (hclose : closeScope s' = .ok () s'') : Lays [] [] (ps ++ laidOut es) ts s s'' := by
  have hm : s'.memory = s.memory.openScope.grow true es.reverse us := h.memory
  have hword : bytesOf es ≤ wordLimit := by
    have hmax := maxStorage_le_wordLimit
    have hstack : s'.memory.stack = es.reverse ++ s.memory.stack := by
      rw [hm]
      rfl
    rw [Tracker.Fits, hstack, bytesOf_append, bytesOf_reverse] at hf
    omega
  have hreleased : s'.memory.closeScope.1 = laidOut es := by
    rw [← place_reverse hword]
    simp [hm, Tracker.openScope, Tracker.grow, Tracker.onScope, Tracker.closeScope]
  cases hclose
  constructor
  case memory =>
    change s'.memory.closeScope.2 = _
    rw [hm, Tracker.closeScope_grow_openScope, Tracker.grow_nil]
  case body =>
    change s'.body.map (·.release s'.memory.closeScope.1) = _
    rw [h.body, hreleased]
    simp only [opened]
    cases s.body <;> simp [Body.release]
  case names =>
    have hids : (laidOut es).map (·.element.id) = es.reverse.map (·.id) := by
      rw [← map_element_laidOut, List.map_map]
      rfl
    refine List.Perm.trans ?_ h.names
    rw [List.map_nil, List.nil_append, List.map_append, hids]
    exact List.perm_append_comm

end Lays

variable {s s' : Session}

/-- A block in which the stack fits releases the elements of its frame. -/
theorem scoped_lays {es : List Element} {us : List Udt} {ps : List Placed} {ts : List Token}
    {x : Check Unit} (hgrows : Grows true x) (hb : s.body.isSome = true) (hf : s.memory.Fits)
    (hx : Ends x (opened s) (fun _ s' => Lays es.reverse us ps ts (opened s) s')
      (fun _ _ => True)) :
    Ends (do
      openScope
      x
      closeScope) s (fun _ s' => Lays [] [] (ps ++ laidOut es) ts s s') (fun _ _ => True) := by
  refine Ends.bind (openScope_ends ?_)
  refine (hx.and (hgrows (opened s) hb)).seq (fun _ _ _ => trivial) ?_
  rintro _ s₁ ⟨h₁, bs, hg⟩
  exact Ends.run.mono (fun _ _ hclose => h₁.close (hg.fits hf) hclose) (fun _ _ _ => trivial)

/-- A condition changes neither stack nor frame. -/
theorem condition_lays {es : List Element} {us : List Udt} {ps : List Placed} {ts : List Token}
    (c : Expr) {x : Check Unit} (hb : s.body.isSome = true) (hf : s.memory.Fits)
    (hx : ∀ s₁ : Session, s₁.body.isSome = true → s₁.memory.Fits → s₁.memory.udts = s.memory.udts →
      Ends x s₁ (fun _ s' => Lays es us ps ts s₁ s') (fun _ _ => True)) :
    Ends (do condition c; x) s (fun _ s' => Lays es us ps ts s s') (fun _ _ => True) := by
  refine (notes_condition c s).seq (fun _ _ _ => trivial) fun _ s₁ h₁ => ?_
  refine (hx s₁ (h₁.same ▸ hb) (h₁.fits hf) (by rw [h₁.memory_eq])).mono (fun _ s₂ h₂ => ?_)
    (fun _ _ _ => trivial)
  simpa using (Lays.of_noted h₁).trans h₂

mutual

theorem stmt_lays : ∀ (st : Stmt) (s : Session), s.body.isSome = true → s.memory.Fits →
    Ends (stmt st) s
      (fun _ s' => Lays (st.own s.memory.udts) st.udts (st.inside s.memory.udts) st.locals s s')
      (fun _ _ => True)
  | .varDecl d, s, hb, hf => by
    rw [stmt]
    refine (localVariable_ends d hb).mono ?_ (fun _ _ _ => trivial)
    rintro _ s' ⟨b, hg, hv⟩
    exact .of_values hg hv hb
  | .constDecl d, s, hb, hf => by
    rw [stmt]
    refine (constant_ends d).mono ?_ (fun _ _ _ => trivial)
    rintro _ s' ⟨b, hg, hv⟩
    exact .of_values hg hv hb
  | .typeDef d, s, hb, hf => by
    rw [stmt]
    exact (types_shaped [d]).mono (fun _ _ h => .of_shaped h hb) (fun _ _ _ => trivial)
  | .assign target op source, s, hb, hf => by
    rw [stmt]
    exact (notes_assignment target op source s).mono (fun _ _ h => .of_noted h)
      (fun _ _ _ => trivial)
  | .expr e, s, hb, hf => by
    rw [stmt]
    exact (((notes_expr e).bind fun _ => .pure ()) s).mono (fun _ _ h => .of_noted h)
      (fun _ _ _ => trivial)
  | .branch _ c thenBlock none, s, hb, hf => by
    rw [stmt]
    refine condition_lays c hb hf fun s₁ hb₁ hf₁ hu₁ => ?_
    exact hu₁ ▸ block_lays thenBlock s₁ hb₁ hf₁
  | .branch _ c thenBlock (some elseBlock), s, hb, hf => by
    rw [stmt]
    refine condition_lays c hb hf fun s₁ hb₁ hf₁ hu₁ => ?_
    rw [← hu₁]
    refine ((block_lays thenBlock s₁ hb₁ hf₁).and (grows_block thenBlock s₁ hb₁)).seq
      (fun _ _ _ => trivial) ?_
    rintro _ s₂ ⟨h₂, bs, hg⟩
    refine (block_lays elseBlock s₂ (hg.isSome_body.trans hb₁) (hg.fits hf₁)).mono
      (fun _ s₃ h₃ => ?_) (fun _ _ _ => trivial)
    rw [h₂.udts] at h₃
    exact h₂.trans h₃
  | .loop _ c body, s, hb, hf => by
    rw [stmt]
    refine condition_lays c hb hf fun s₁ hb₁ hf₁ hu₁ => ?_
    exact hu₁ ▸ block_lays body s₁ hb₁ hf₁
  | .ret token result, s, hb, hf => by
    rw [stmt]
    exact (notes_ret token result s).mono (fun _ _ h => .of_noted h) (fun _ _ _ => trivial)
  | .block b, s, hb, hf => by
    rw [stmt]
    exact block_lays b s hb hf

theorem block_lays : ∀ (b : Block) (s : Session), s.body.isSome = true → s.memory.Fits →
    Ends (block b) s (fun _ s' => Lays [] [] (b.frame s.memory.udts) b.locals s s')
      (fun _ _ => True)
  | ⟨_, _, body⟩, s, hb, hf => by
    rw [block]
    exact scoped_lays (grows_stmts body) hb hf (stmts_lays body (opened s) hb hf)

theorem stmts_lays : ∀ (body : List Stmt) (s : Session), s.body.isSome = true → s.memory.Fits →
    Ends (stmts body) s
      (fun _ s' => Lays (Stmt.ownAll s.memory.udts body).reverse (Stmt.udtsAll body)
        (Stmt.insideAll s.memory.udts body) (Stmt.localsAll body) s s')
      (fun _ _ => True)
  | [], s, hb, hf => by
    rw [stmts]
    exact Ends.pure (.refl s)
  | st :: rest, s, hb, hf => by
    rw [stmts]
    refine ((stmt_lays st s hb hf).and (grows_stmt st s hb)).seq (fun _ _ _ => trivial) ?_
    rintro _ s₁ ⟨h₁, bs, hg⟩
    refine (stmts_lays rest s₁ (hg.isSome_body.trans hb) (hg.fits hf)).mono (fun _ s₂ h₂ => ?_)
      (fun _ _ _ => trivial)
    rw [h₁.udts] at h₂
    -- A statement declares at most one element itself.
    have hown : (st.own s.memory.udts).reverse = st.own s.memory.udts := by cases st <;> rfl
    rw [Stmt.ownAll, List.reverse_append, hown]
    exact h₁.trans h₂

end

end Check

end StoragePlan
