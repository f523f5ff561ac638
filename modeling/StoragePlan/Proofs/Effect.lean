import StoragePlan.Check.Session
import StoragePlan.Proofs.Binding
import StoragePlan.Proofs.Bytes
import StoragePlan.Proofs.Ends

/-!
What a step of a check can do to its session. A step that succeeds has made some declarations and
given handles to some types: `Grown` says this once for all steps. A step that fails may leave
scopes open; `Failed` says what remains when they are closed again.
-/

namespace StoragePlan

/-- The body with more elements released by its closed scopes. -/
def Body.release (ps : List Placed) (b : Body) : Body := { b with released := b.released ++ ps }

namespace Check

/-- The session `s'` is `s` after the declarations `bs`, newest first. -/
structure Grown (bs : List Binding) (s s' : Session) : Prop where
  file : s'.file = s.file
  memory : s'.memory = s.memory.gain s.body.isSome bs
  tables : s'.names.tables = (s.names.onTable s.file (·.gain bs)).tables
  types : s.names.types.Grown s'.names.types
  body : ∃ ps, s'.body = s.body.map (·.release ps)
  frames : s'.frames = s.frames
  udts : s'.udts = if s.body.isSome then s.udts else s.udts ++ (bs.filterMap (·.udt?)).reverse
  sound : s.names.types.Ordered → ∀ b ∈ bs, b.Matches s'.names.types
  distinct : s.body = none → s.memory.Distinct → s'.memory.Distinct
  shapes : (s.names.table? s.file).isSome → (s.memory.udts.map (·.id)).Nodup →
    (s'.memory.udts.map (·.id)).Nodup
  fits : s.memory.Fits → s'.memory.Fits

namespace Grown

variable {bs bs' : List Binding} {s s' s'' : Session}

theorem isSome_body (h : Grown bs s s') : s'.body.isSome = s.body.isSome := by
  obtain ⟨ps, hb⟩ := h.body
  simp [hb]

theorem table? (h : Grown bs s s') :
    s'.names.table? s'.file = (s.names.table? s.file).map (·.gain bs) := by
  rw [h.file, Registry.table?_congr h.tables, Registry.table?_onTable (fun t => t.file_gain bs)]

theorem table?_of_ne (h : Grown bs s s') {other : String} (hne : other ≠ s.file) :
    s'.names.table? other = s.names.table? other := by
  rw [Registry.table?_congr h.tables, Registry.table?_onTable_of_ne (fun t => t.file_gain bs) hne]

theorem lookup?_names (h : Grown bs s s') (id : String) :
    s'.names.lookup? s'.file id = (s.names.onTable s.file (·.gain bs)).lookup? s.file id := by
  rw [h.file, Registry.lookup?_congr h.tables]

theorem depth_memory (h : Grown bs s s') : s'.memory.depth = s.memory.depth := by
  rw [h.memory, Tracker.depth_gain]

theorem depth_names (h : Grown bs s s') : s'.names.depth s.file = s.names.depth s.file := by
  have ht := h.table?
  rw [h.file] at ht
  unfold Registry.depth
  rw [ht]
  cases s.names.table? s.file <;> simp

theorem trans (h : Grown bs s s') (h' : Grown bs' s' s'') : Grown (bs' ++ bs) s s'' where
  file := h'.file.trans h.file
  memory := by
    rw [h'.memory, h.isSome_body, h.memory, Tracker.gain_gain]
  tables := by
    rw [h'.tables, h.file]
    simp only [Registry.onTable, h.tables]
    rw [updateFirst_updateFirst (fun t ht => by simpa using ht)]
    congr 1
    funext t
    exact t.gain_gain bs bs'
  types := h.types.trans h'.types
  body := by
    obtain ⟨ps, hb⟩ := h.body
    obtain ⟨ps', hb'⟩ := h'.body
    exact ⟨ps ++ ps', by rw [hb', hb]; cases s.body <;> simp [Body.release]⟩
  frames := h'.frames.trans h.frames
  udts := by
    rw [h'.udts, h.isSome_body, h.udts]
    split <;> simp
  sound ho b hb := by
    rcases List.mem_append.mp hb with hb | hb
    · exact h'.sound (h.types.ordered ho) b hb
    · exact (h.sound ho b hb).mono (h.types.ordered ho) h'.types
  distinct hn hd := by
    obtain ⟨ps, hb⟩ := h.body
    exact h'.distinct (by simp [hb, hn]) (h.distinct hn hd)
  shapes hk hn := h'.shapes (by simpa [h.table?] using hk) (h.shapes hk hn)
  fits hf := h'.fits (h.fits hf)

/-- A step that only gives handles to types and records them. -/
theorem of_types {types : TypeTable} {nodes : NodeTypes} (h : s.names.types.Grown types) :
    Grown [] s { s with names := { s.names with types := types }, types := nodes } where
  file := rfl
  memory := by simp
  tables := by simp [Registry.onTable, updateFirst_id]
  types := h
  body := ⟨[], by cases hb : s.body <;> simp [Body.release]⟩
  frames := rfl
  udts := by simp
  sound _ b hb := by cases hb
  distinct _ hd := hd
  shapes _ hn := hn
  fits hf := hf

theorem refl (s : Session) : Grown [] s s := of_types (.refl _)

theorem memory_eq (h : Grown [] s s') : s'.memory = s.memory := by
  rw [h.memory, Tracker.gain_nil]

theorem tables_eq (h : Grown [] s s') : s'.names.tables = s.names.tables := by
  rw [h.tables]
  simp [Registry.onTable, updateFirst_id]

/-- Where nothing is declared names mean what they meant. -/
theorem lookup?_eq (h : Grown [] s s') (id : String) :
    s'.names.lookup? s'.file id = s.names.lookup? s.file id := by
  rw [h.file, Registry.lookup?_congr h.tables_eq]

end Grown

/-! ### Failures -/

/-- The functions, variables and constants among some symbols have these elements. -/
def Stored (types : TypeTable) (ss : List Symbol) (es : List Element) : Prop :=
  ∃ bs : List Binding, bs.map (·.symbol) = ss.filter (!·.isUdt) ∧
    bs.filterMap (·.element?) = es ∧ ∀ b ∈ bs, b.Matches types

theorem Stored.of_matches {types : TypeTable} {bs : List Binding}
    (h : ∀ b ∈ bs, b.Matches types) :
    Stored types (bs.map (·.symbol)) (bs.filterMap (·.element?)) := by
  refine ⟨bs.filter (!·.symbol.isUdt), by rw [List.filter_map]; rfl, ?_,
    fun b hb => h b (List.mem_filter.mp hb).1⟩
  induction bs with
  | nil => rfl
  | cons b bs ih =>
    rw [List.forall_mem_cons] at h
    cases hu : b.symbol.isUdt with
    | true => simp [hu, h.1.element?_eq_none hu, ih h.2]
    | false => simp [hu, List.filterMap_cons, ih h.2]

theorem Stored.append {types : TypeTable} {ss ss' : List Symbol} {es es' : List Element}
    (h : Stored types ss es) (h' : Stored types ss' es') :
    Stored types (ss ++ ss') (es ++ es') := by
  obtain ⟨bs, hs, rfl, hm⟩ := h
  obtain ⟨bs', hs', rfl, hm'⟩ := h'
  refine ⟨bs ++ bs', by simp [hs, hs'], by simp, fun b hb => ?_⟩
  rcases List.mem_append.mp hb with hb | hb
  · exact hm b hb
  · exact hm' b hb

/-- What a failed step leaves once the scopes it opened are closed: elements, types and symbols. -/
structure Remains (es : List Element) (us : List Udt) (ss : List Symbol) (s s' : Session) :
    Prop where
  memory : s'.memory.closeTo s.memory.depth = s.memory.grow s.body.isSome es us
  deeper : s.memory.depth ≤ s'.memory.depth
  tables : (s'.names.closeTo s.file (s.names.depth s.file)).tables =
    (s.names.onTable s.file (·.grow ss)).tables
  further : s.names.depth s.file ≤ s'.names.depth s.file
  stored : s.names.types.Ordered → Stored s'.names.types ss es
  distinct : s.body = none → s.memory.Distinct → (s.memory.grow s.body.isSome es us).Distinct

/-- Without open scopes all that was declared remains. -/
theorem Grown.remains {bs : List Binding} {s s' : Session} (h : Grown bs s s') :
    Remains (bs.filterMap (·.element?)) (bs.filterMap (·.udt?)) (bs.map (·.symbol)) s s' := by
  constructor
  case memory => rw [← h.depth_memory, Tracker.closeTo_depth, h.memory, Tracker.gain]
  case deeper => exact Nat.le_of_eq h.depth_memory.symm
  case tables =>
    rw [← h.depth_names, Registry.closeTo_depth, h.tables]
    rfl
  case further => exact Nat.le_of_eq h.depth_names.symm
  case stored =>
    intro ho
    exact Stored.of_matches (h.sound ho)
  case distinct =>
    intro hb hd
    have hgrown := h.distinct hb hd
    rwa [h.memory] at hgrown

/-- What remains of a failure after some declarations. -/
theorem Remains.after {bs : List Binding} {es : List Element} {us : List Udt} {ss : List Symbol}
    {s s' s'' : Session} (h : Grown bs s s') (hr : Remains es us ss s' s'')
    (ht : s'.names.types.Grown s''.names.types) :
    Remains (es ++ bs.filterMap (·.element?)) (us ++ bs.filterMap (·.udt?))
      (ss ++ bs.map (·.symbol)) s s'' := by
  have hm : s'.memory.grow s'.body.isSome es us = s.memory.grow s.body.isSome
      (es ++ bs.filterMap (·.element?)) (us ++ bs.filterMap (·.udt?)) := by
    rw [h.isSome_body, h.memory, Tracker.gain, Tracker.grow_grow]
  constructor
  case memory => rw [← h.depth_memory, hr.memory, hm]
  case deeper =>
    rw [← h.depth_memory]
    exact hr.deeper
  case tables =>
    have ht := hr.tables
    rw [h.file, h.depth_names] at ht
    rw [ht]
    simp only [Registry.onTable, h.tables]
    rw [updateFirst_updateFirst (fun t ht => by simpa using ht)]
    congr 1
    funext t
    exact t.grow_grow _ _
  case further =>
    have hf := hr.further
    rwa [h.file, h.depth_names] at hf
  case stored =>
    intro ho
    refine (hr.stored (h.types.ordered ho)).append (Stored.of_matches fun b hb => ?_)
    exact (h.sound ho b hb).mono (h.types.ordered ho) ht
  case distinct =>
    intro hb hd
    obtain ⟨ps, hb'⟩ := h.body
    rw [← hm]
    exact hr.distinct (by simp [hb', hb]) (h.distinct hb hd)

/-- The session `s'` is what a step from `s` has left that failed. -/
structure Failed (s s' : Session) : Prop where
  file : s'.file = s.file
  types : s.names.types.Grown s'.names.types
  remains : ∃ es us ss, Remains es us ss s s'

namespace Failed

variable {bs : List Binding} {s s' s'' : Session}

theorem of_grown (h : Grown bs s s') : Failed s s' := ⟨h.file, h.types, _, _, _, h.remains⟩

theorem refl (s : Session) : Failed s s := of_grown (Grown.refl s)

/-- A failure after some declarations. -/
theorem after (h : Grown bs s s') (h' : Failed s' s'') : Failed s s'' where
  file := h'.file.trans h.file
  types := h.types.trans h'.types
  remains := by
    obtain ⟨es, us, ss, hr⟩ := h'.remains
    exact ⟨_, _, _, Remains.after h hr h'.types⟩

end Failed

/-! ### Steps in turn -/

/-- The session `s'` is `s` without more declarations and inside of the same body. -/
structure Noted (s s' : Session) : Prop extends Grown [] s s' where
  same : s'.body = s.body

theorem Noted.refl (s : Session) : Noted s s := ⟨.refl s, rfl⟩

theorem Noted.trans {s s' s'' : Session} (h : Noted s s') (h' : Noted s' s'') : Noted s s'' :=
  ⟨h.toGrown.trans h'.toGrown, h'.same.trans h.same⟩

/-- A step that declares nothing, whether it succeeds or fails. -/
def Notes {α : Type} (x : Check α) : Prop :=
  ∀ s, Ends x s (fun _ s' => Noted s s') (fun _ s' => Noted s s')

/-- A step that may make declarations, inside of a function or outside. -/
def Grows {α : Type} (inner : Bool) (x : Check α) : Prop :=
  ∀ s, s.body.isSome = inner →
    Ends x s (fun _ s' => ∃ bs, Grown bs s s') (fun _ s' => Failed s s')

variable {inner : Bool} {α β : Type} {x : Check α} {f : α → Check β}

theorem Notes.pure (a : α) : Notes (Pure.pure a : Check α) := fun s => Ends.pure (.refl s)

theorem Notes.fail (p : Position) (e : SemanticError) : Notes (Check.fail p e : Check α) :=
  fun s => Ends.throw (.refl s)

theorem Notes.bind (hx : Notes x) (hf : ∀ a, Notes (f a)) : Notes (x >>= f) := fun s =>
  (hx s).seq (fun _ _ h => h) fun a _ h =>
    (hf a _).mono (fun _ _ h' => h.trans h') (fun _ _ h' => h.trans h')

/-- A step that leaves the session alone. -/
theorem Notes.of_eq (h : ∀ s, Ends x s (fun _ s' => s' = s) (fun _ s' => s' = s)) : Notes x :=
  fun s => (h s).mono (fun _ _ h => h ▸ .refl s) (fun _ _ h => h ▸ .refl s)

theorem Notes.forM_option {γ : Type} {g : γ → Check PUnit} (hg : ∀ c, Notes (g c))
    (o : Option γ) : Notes (o.forM g) := by
  cases o with
  | none => exact Notes.pure ()
  | some c => exact hg c

theorem Notes.grows (hx : Notes x) : Grows inner x := fun s _ =>
  (hx s).mono (fun _ _ h => ⟨[], h.toGrown⟩) (fun _ _ h => .of_grown h.toGrown)

theorem Grows.bind (hx : Grows inner x) (hf : ∀ a, Grows inner (f a)) : Grows inner (x >>= f) :=
  fun s hs => (hx s hs).seq (fun _ _ h => h) fun a _ ⟨_, h⟩ =>
    (hf a _ (h.isSome_body.trans hs)).mono (fun _ _ ⟨_, h'⟩ => ⟨_, h.trans h'⟩)
      (fun _ _ h' => .after h h')

theorem Grows.forM {γ : Type} {g : γ → Check PUnit} (hg : ∀ c, Grows inner (g c)) (cs : List γ) :
    Grows inner (cs.forM g) := by
  induction cs with
  | nil => exact (Notes.pure ()).grows
  | cons c cs ih => exact (hg c).bind fun _ => ih

end Check

end StoragePlan
