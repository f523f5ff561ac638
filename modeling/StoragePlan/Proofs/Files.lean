import StoragePlan.Proofs.Scopes

/-!
What the check of a file leaves. Types, functions and globals stay at the top level; the bodies of
functions leave nothing but their frames. `Left` says it for `verify` as a whole, whether the file is
right or not: storage gains globals and types, and the table of the file gains symbols.
-/

namespace StoragePlan

namespace Check

variable {s s' s'' : Session} {bs : List Binding}

/-! ### Frames -/

/-- The session with other frames. -/
def reframed (fs : List Frame) (s : Session) : Session := { s with frames := fs }

theorem Grown.reframed (h : Grown bs s s') (fs : List Frame) :
    Grown bs (reframed fs s) (reframed fs s') :=
  ⟨h.file, h.memory, h.tables, h.types, h.body, rfl, h.udts, h.sound, h.distinct, h.shapes, h.fits⟩

theorem Failed.reframed {fs : List Frame} (h : Failed (reframed fs s) s') : Failed s s' := by
  obtain ⟨es, us, ss, hr⟩ := h.remains
  exact ⟨h.file, h.types, es, us, ss, hr.memory, hr.deeper, hr.tables, hr.further, hr.stored,
    hr.distinct⟩

/-! ### Function bodies -/

/-- The session inside of a function. -/
def entered (b : Body) (s : Session) : Session := { s with body := some b }

theorem Unwound.entered {b : Body} (h : Unwound (entered b s) s') : Unwound s s' where
  file := h.file
  types := h.types
  remains := by
    have hr := h.remains
    refine ⟨?_, hr.deeper, hr.tables, hr.further, hr.stored, fun _ hd => ?_⟩
    · rw [Tracker.grow_nil]
      exact hr.memory.trans (Tracker.grow_nil _ _)
    · rwa [Tracker.grow_nil]

theorem returns_ends (a : Option Annotation) :
    Ends (a.mapM resolve) s (fun _ s' => s' = s) (fun _ s' => s' = s) := by
  cases a with
  | none => exact Ends.pure rfl
  | some a => exact Ends.map ((resolve_ends a).mono (fun _ _ h => h.1) (fun _ _ h => h.1))

/-- The body of a function leaves its frame and nothing else. -/
theorem functionBody_ends (d : FunctionDef) (hs : s.body = none) :
    Ends (functionBody d) s (fun _ s' => Grown [] s (reframed s.frames s'))
      (fun _ s' => Unwound s s') := by
  have hquiet : Unwound s s := by
    refine ⟨rfl, .refl _, ?_, Nat.le_refl _, ?_, Nat.le_refl _, fun _ => ⟨[], rfl, rfl, by simp⟩,
      fun _ hd => ?_⟩
    · rw [Tracker.closeTo_depth, Tracker.grow_nil]
    · rw [Registry.closeTo_depth]
      simp [Registry.onTable, updateFirst_id]
    · rwa [Tracker.grow_nil]
  refine (ofExcept_ends _).seq (fun _ _ h => h.1 ▸ hquiet) ?_
  rintro id s ⟨rfl, _⟩
  refine (returns_ends d.returns).seq (fun _ _ h => h ▸ hquiet) ?_
  rintro returns s rfl
  refine Ends.bind (Ends.modify (Ends.bind (openScope_ends ?_)))
  let s₁ := entered ⟨id, returns, []⟩ s
  have hb : s₁.body.isSome = true := rfl
  refine (Grows.forM grows_pushParameter d.params (opened s₁) hb).seq
    (fun _ _ hf => (hf.unwound hb).entered) ?_
  rintro _ s₂ ⟨bs, h₂⟩
  refine (grows_stmts d.body.body s₂ h₂.isSome_body).seq
    (fun _ _ hf => ((Failed.after h₂ hf).unwound hb).entered) ?_
  rintro _ s₃ ⟨bs', h₃⟩
  have h := h₂.trans h₃
  split
  · exact Ends.throw ((Failed.of_grown h).unwound hb).entered
  · refine (closeScope_ends h hb).seq (fun _ _ h => h.elim) fun _ s₄ h₄ => Ends.modify ?_
    exact {
      file := h₄.file
      memory := by
        rw [Tracker.gain_nil]
        exact h₄.memory_eq
      tables := h₄.tables
      types := h₄.types
      body := ⟨[], by simp [hs, reframed]⟩
      frames := rfl
      udts := by
        have hu : s₄.udts = s₁.udts := by simpa [hb] using h₄.udts
        rw [List.filterMap_nil, List.reverse_nil, List.append_nil, ite_self]
        exact hu
      sound := fun _ b hb => by cases hb
      distinct := fun _ hd => by
        have hm : s₄.memory = s.memory := h₄.memory_eq
        simpa only [reframed, hm] using hd
      shapes := h₄.shapes
      fits := h₄.fits }

theorem functionBodies_ends (ds : List FunctionDef) (hs : s.body = none) :
    Ends (ds.forM functionBody) s (fun _ s' => Grown [] s (reframed s.frames s'))
      (fun _ s' => Failed s s') := by
  induction ds generalizing s with
  | nil => exact Ends.pure (.refl s)
  | cons d ds ih =>
    refine (functionBody_ends d hs).seq (fun _ _ hf => hf.failed) fun _ s₁ h₁ => ?_
    have hs₁ : s₁.body = none := by simpa [hs, reframed] using h₁.isSome_body
    refine (ih hs₁).mono (fun _ s₂ h₂ => h₁.trans (h₂.reframed s.frames)) fun _ s₂ hf => ?_
    have hf₁ : Failed (reframed s₁.frames (reframed s.frames s₁)) s₂ := hf
    exact .after h₁ hf₁.reframed

/-! ### Items -/

/-- The element that an item puts behind the globals has the right size, and there is room for it. -/
structure Stores (i : Item) (s : Session) (e : Element) : Prop where
  sized : Sized i s e
  room : bytesOf s.memory.dataSegment ≤ maxStorage →
    bytesOf (s.memory.dataSegment ++ [e]) ≤ maxStorage

/-- A value finds room in the data segment outside of functions. -/
theorem Values.stores {i : Item} {name : Token} {a : Annotation} {v : Int} {b : Binding}
    (h : Values name (a.element s.memory.udts name v) s s' b) (hs : s.body = none)
    (hi : i.annotation? = some a) : Stores i s (a.element s.memory.udts name v) where
  sized := ⟨a, hi, rfl, rfl⟩
  room _ := by
    have hroom := h.room
    simp only [used, hs, Option.isSome_none, Bool.false_eq_true, if_false] at hroom
    simpa using bytesOf_add_le hroom

/-- An item declares nothing, or one element and its symbol. -/
theorem item_stores (i : Item) (hs : s.body = none) :
    Ends (item i) s
      (fun _ s' => s' = s ∨ ∃ b e, Grown [b] s s' ∧ b.holding = .element e ∧ Stores i s e)
      (fun _ s' => Grown [] s s') := by
  have hb : s.body.isSome = false := by simp [hs]
  cases i with
  | function d =>
    refine (functionName_ends d hb).mono ?_ fun _ _ h => h
    rintro _ s' ⟨b, hg, _, sig, he, _⟩
    exact .inr ⟨b, _, hg, he, rfl, fun hroom => by simpa [Element.function] using hroom⟩
  | varDecl d =>
    refine (globalVariable_ends d hb).mono ?_ fun _ _ h => h
    rintro _ s' ⟨b, hg, hv⟩
    exact .inr ⟨b, _, hg, hv.holding, hv.stores hs rfl⟩
  | constDecl d =>
    refine (constant_ends d).mono ?_ fun _ _ h => h
    rintro _ s' ⟨b, hg, hv⟩
    exact .inr ⟨b, _, hg, hv.holding, hv.stores hs rfl⟩
  | importFile i => exact Ends.pure (.inl rfl)
  | typeDef d => exact Ends.pure (.inl rfl)

theorem grows_item (i : Item) : Grows false (item i) := by
  intro s hs
  refine (item_stores i (by simpa using hs)).mono ?_ (fun _ _ h => .of_grown h)
  rintro _ s' (rfl | ⟨b, e, hg, _⟩)
  · exact ⟨[], .refl s'⟩
  · exact ⟨[b], hg⟩

/-! ### Files -/

theorem file_ends (f : SourceFile) (hs : s.body = none) :
    Ends (file f) s (fun _ s' => ∃ bs, Grown bs s (reframed s.frames s'))
      (fun _ s' => Failed s s') := by
  have hb : s.body.isSome = false := by simp [hs]
  refine (grows_types false f.types s hb).seq (fun _ _ hf => hf) fun _ s₁ ⟨bs₁, h₁⟩ => ?_
  refine (Grows.forM grows_item f.items s₁ (h₁.isSome_body.trans hb)).seq
    (fun _ _ hf => .after h₁ hf) fun _ s₂ ⟨bs₂, h₂⟩ => ?_
  have h := h₁.trans h₂
  have hs₂ : s₂.body = none := by simpa [hs] using h.isSome_body
  refine (functionBodies_ends f.functions hs₂).mono (fun _ s₃ h₃ => ⟨[] ++ (bs₂ ++ bs₁), ?_⟩)
    (fun _ _ hf => .after h hf)
  rw [h.frames] at h₃
  exact h.trans h₃

end Check

/-! ### Verification -/

/-- The session in which the check of a file begins. -/
def Session.start (file : String) (memory : Tracker) (names : Registry) : Session :=
  ⟨file, memory, names.addFile file, none, [], [], []⟩

section Verify

variable {file : String} {memory : Tracker} {names : Registry} {source : SourceFile}

theorem verify_of_ok {s : Session} (h : Check.file source (.start file memory names) = .ok () s) :
    verify file memory names source =
      ⟨.ok ⟨file, s.frames, s.types, s.udts⟩, s.memory, s.names⟩ := by
  unfold verify
  unfold Session.start at h
  simp only [h]

theorem verify_of_error {s : Session} {f : SemanticFault}
    (h : Check.file source (.start file memory names) = .error f s) :
    verify file memory names source =
      ⟨.error f, s.memory.closeTo memory.depth,
        s.names.closeTo file ((names.addFile file).depth file)⟩ := by
  unfold verify
  unfold Session.start at h
  simp only [h]

/-- A file is right if its check succeeds. -/
theorem verify_result_ok {v : VerifiedFile} (h : (verify file memory names source).result = .ok v) :
    ∃ s, Check.file source (.start file memory names) = .ok () s ∧
      v = ⟨file, s.frames, s.types, s.udts⟩ := by
  cases hrun : Check.file source (.start file memory names) with
  | ok u s =>
    rw [verify_of_ok hrun] at h
    exact ⟨s, rfl, (Except.ok.inj h).symm⟩
  | error f s =>
    rw [verify_of_error hrun] at h
    cases h

theorem verify_result_error {f : SemanticFault}
    (h : (verify file memory names source).result = .error f) :
    ∃ s, Check.file source (.start file memory names) = .error f s := by
  cases hrun : Check.file source (.start file memory names) with
  | ok u s =>
    rw [verify_of_ok hrun] at h
    cases h
  | error f' s =>
    rw [verify_of_error hrun] at h
    exact ⟨s, by rw [Except.error.inj h]⟩

end Verify

/-- What the check of a file has left: globals, active types and symbols, all newest first. -/
structure Left (es : List Element) (us : List Udt) (ss : List Symbol) (file : String)
    (m : Tracker) (r : Registry) (c : Checked) : Prop where
  memory : c.memory = m.grow false es us
  tables : c.names.tables = ((r.addFile file).onTable file (·.grow ss)).tables
  types : r.types.Grown c.names.types
  stored : r.types.Ordered → Check.Stored c.names.types ss es
  distinct : m.Distinct → c.memory.Distinct

theorem Registry.types_addFile (r : Registry) (file : String) :
    (r.addFile file).types = r.types := by
  unfold addFile
  split <;> rfl

/-- A check that fails leaves what remains of it. -/
theorem Check.Remains.left {es : List Element} {us : List Udt} {ss : List Symbol} {file : String}
    {memory : Tracker} {names : Registry} {source : SourceFile} {f : SemanticFault} {s : Session}
    (h : Check.Remains es us ss (.start file memory names) s)
    (hrun : Check.file source (.start file memory names) = .error f s) :
    Left es us ss file memory names (verify file memory names source) := by
  have ht : (Session.start file memory names).names.types = names.types :=
    Registry.types_addFile names file
  have hg := ((Check.file_ends source rfl).error hrun).types
  rw [verify_of_error hrun]
  refine ⟨h.memory, h.tables, ht ▸ hg, fun ho => h.stored (ht ▸ ho), fun hd => ?_⟩
  have hd' := h.distinct rfl hd
  rwa [← h.memory] at hd'

theorem verify_left (file : String) (memory : Tracker) (names : Registry) (source : SourceFile) :
    ∃ es us ss, Left es us ss file memory names (verify file memory names source) := by
  let s := Session.start file memory names
  have ht : s.names.types = names.types := Registry.types_addFile names file
  have hends := Check.file_ends (s := s) source rfl
  cases hrun : Check.file source s with
  | ok u s' =>
    obtain ⟨bs, h⟩ := hends.ok hrun
    refine ⟨bs.filterMap (·.element?), bs.filterMap (·.udt?), bs.map (·.symbol), ?_⟩
    rw [verify_of_ok hrun]
    exact ⟨h.memory, h.tables, ht ▸ h.types, fun ho => .of_matches (h.sound (ht ▸ ho)),
      h.distinct rfl⟩
  | error e s' =>
    obtain ⟨es, us, ss, hr⟩ := (hends.error hrun).remains
    exact ⟨es, us, ss, hr.left hrun⟩

end StoragePlan
