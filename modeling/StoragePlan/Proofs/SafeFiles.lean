import StoragePlan.Proofs.Safety

/-!
The check of a sound file breaks no promise. Declarations and statements are safe one by one, blocks
and bodies of functions because they end where they began, and so is the check of a file as a whole.
-/

namespace StoragePlan

namespace Check

variable {α β : Type} {inner : Bool} {s s' : Session}

/-! ### Types -/

theorem typeName_spares {d : TypeDef} (h : d.name.Names) :
    Spares (typeName d) s fun _ _ => True := by
  refine (nameOf_spares h).bind ?_
  rintro id s ⟨rfl, _⟩
  refine (requireNew_spares id _).bind ?_
  rintro _ s rfl
  refine Ends.bind (Ends.get ?_)
  split
  · exact Spares.fail rfl
  · exact Ends.modify trivial

theorem typeFields_spares (id : String) {fs : List Field} (h : ∀ f ∈ fs, f.Sound)
    (known : List Member) : Spares (typeFields id known fs) s fun _ _ => True := by
  induction fs generalizing s known with
  | nil => exact Ends.pure trivial
  | cons f fs ih =>
    rw [List.forall_mem_cons] at h
    refine (nameOf_spares h.1.name).bind ?_
    rintro name s ⟨rfl, _⟩
    split
    · exact Spares.fail rfl
    · refine (resolve_spares _).bind ?_
      rintro t s ⟨rfl, hr⟩
      refine (intern_spares hr.based _).bind ?_
      rintro k _ ⟨types, rfl, _⟩
      exact Ends.bind (Ends.modify (ih h.2 _))

theorem typeBody_spares {d : TypeDef} (h : d.Sound) : Spares (typeBody d) s fun _ _ => True := by
  refine (nameOf_spares h.name).bind ?_
  rintro id s ⟨rfl, _⟩
  refine (typeFields_spares id h.fields []).bind fun fields s' _ => ?_
  exact Ends.modify trivial

theorem forM_spares {γ : Type} {g : γ → Check PUnit} {cs : List γ}
    (hg : ∀ c ∈ cs, ∀ s, Spares (g c) s fun _ _ => True) :
    Spares (cs.forM g) s fun _ _ => True := by
  induction cs generalizing s with
  | nil => exact Ends.pure trivial
  | cons c cs ih =>
    rw [List.forall_mem_cons] at hg
    exact (hg.1 s).bind fun _ _ _ => ih hg.2

theorem typeSize_spares {d : TypeDef} {id : String} (hc : s.memory.Closed)
    (hid : nameOf d.name = .ok id) (hactive : s.memory.Active id) :
    Spares (typeSize d) s fun _ s' => s' = s := by
  rw [typeSize, hid]
  refine Ends.bind (Ends.pure ?_)
  refine (sizeOf_spares hc (t := .udt id) hactive _).bind ?_
  rintro _ s rfl
  exact Ends.pure rfl

theorem typeSizes_spares {ds : List TypeDef} (hc : s.memory.Closed)
    (hd : ∀ d ∈ ds, ∃ id, nameOf d.name = .ok id ∧ s.memory.Active id) :
    Spares (ds.forM typeSize) s fun _ s' => s' = s := by
  induction ds with
  | nil => exact Ends.pure rfl
  | cons d ds ih =>
    rw [List.forall_mem_cons] at hd
    obtain ⟨id, hid, hactive⟩ := hd.1
    refine (typeSize_spares hc hid hactive).bind ?_
    rintro _ s rfl
    exact ih hd.2

/-- The types that some definitions declare are active when they are declared. -/
theorem Grown.active {bs : List Binding} (hg : Grown bs s s') (hb : ∀ b ∈ bs, TypeBinding b)
    {id : String} (hid : id ∈ bs.map (·.symbol.id)) : s'.memory.Active id := by
  obtain ⟨b, hmem, rfl⟩ := List.mem_map.mp hid
  obtain ⟨fields, hf⟩ := hb b hmem
  rw [Tracker.active_iff, hg.memory]
  refine List.mem_map.mpr ⟨⟨b.symbol.id, fields⟩, ?_, rfl⟩
  refine List.mem_append_left _ (List.mem_filterMap.mpr ⟨b, hmem, ?_⟩)
  simp [Binding.udt?, hf]

theorem Fit.types (h : Fit inner s) {ds : List TypeDef} {bs : List Binding} (hg : Grown bs s s')
    (hdef : Defines ds s bs) (hd : ∀ d ∈ ds, d.Sound) : Fit inner s' := by
  refine h.grown hg fun b hb u hu m hm => ?_
  obtain ⟨d, hdm, f, hf, t, hr, ht⟩ := hdef.fields b hb u hu m hm
  rw [ht]
  have hsound := (hd d hdm).fields f hf
  refine (hr.ofId hsound.annotation).mono fun id hid => ?_
  rcases hid with hid | hk
  · exact hg.active hdef.holding hid
  · have hactive := Tracker.active_iff.mp (h.active hk)
    rw [Tracker.active_iff, hg.memory]
    simp only [Tracker.gain, Tracker.udts_grow, List.map_append]
    exact List.mem_append_right _ hactive

theorem safe_types {ds : List TypeDef} (h : ∀ d ∈ ds, d.Sound) : Safe inner (types ds) := by
  intro s hs
  refine ((forM_spares fun d hd _ => typeName_spares (h d hd).name).with_ends
    (typeNames_ends ds (.refl s))).bind ?_
  rintro _ s₁ ⟨_, hnames, hw⟩
  refine ((forM_spares fun d hd _ => typeBody_spares (h d hd)).with_ends
    (typeBodies_ends ds ds [] _ (fun _ h => h) hnames (by simpa using hw) rfl (fun _ h => .inl h)
      (by simp) (by simp) (by simp) (by simp))).bind ?_
  rintro _ s₂ ⟨_, bs, _, hids, hg, hdef⟩
  have hs₂ : Fit inner s₂ := hs.types hg hdef h
  refine (typeSizes_spares hs₂.closed fun d hd => ?_).mono fun _ _ he => he ▸ hs₂
  obtain ⟨b, hb, hforms⟩ := hdef.all d hd
  exact ⟨b.symbol.id, hforms.named, hg.active hdef.holding (List.mem_map_of_mem hb)⟩

/-! ### Variables, constants and functions -/

/-- A declaration of a value, up to its initializer. -/
theorem announced_spares (hs : Fit inner s) {name : Token} {a : Annotation} (hn : name.Names)
    {f : String → ValueType → Nat → Check β} {done : β → Session → Prop}
    (h : ∀ id t n, t.Based s.memory.Active → Spares (f id t n) s done) :
    Spares (do
      let id ← ofExcept (nameOf name)
      requireNew id name.position
      let t ← resolve a
      let n ← sizeOf t a.position
      f id t n) s done := by
  refine (nameOf_spares hn).bind ?_
  rintro id s ⟨rfl, _⟩
  refine (requireNew_spares id _).bind ?_
  rintro _ s rfl
  refine (resolve_spares a).bind ?_
  rintro t s ⟨rfl, hr⟩
  have ht := hs.resolves hr
  refine (sizeOf_spares hs.closed ht _).bind ?_
  rintro n s rfl
  exact h id t n ht

theorem declareValue_spares {id : String} {kind : Handle → SymbolKind} {exported : Bool}
    {p : Position} {t : ValueType} {known : String → Prop} (ht : t.Based known) {size : Nat}
    {v : Int} : Spares (declareValue id kind exported p t size v) s fun _ _ => True := by
  refine (requireRoom_spares id size p).bind ?_
  rintro _ s rfl
  refine (intern_spares ht p).bind ?_
  rintro h _ ⟨types, rfl, _⟩
  exact Ends.bind (Ends.modify (Ends.pure trivial))

theorem safe_literalFor (id : String) (target : ValueType) {init : Expr} (h : init.Sound) :
    Safe inner (literalFor id target init) := by
  unfold literalFor
  split
  · refine (safe_expr _ h).bind fun t => ?_
    split
    · exact .pure _
    · exact .fail rfl
  · exact .fail rfl

theorem safe_valueFor (target : ValueType) {init : Expr} (h : init.Sound) :
    Safe inner (valueFor target init) := by
  refine (safe_value h).bind fun t => ?_
  split
  · exact .pure _
  · exact .fail rfl

theorem safe_forM_option {γ : Type} {g : γ → Check PUnit} {o : Option γ}
    (hg : ∀ c ∈ o, Safe inner (g c)) : Safe inner (o.forM g) := by
  cases o with
  | none => exact .pure ()
  | some c => exact hg c rfl

/-- A declaration that adds one element keeps the session fit. -/
theorem Safe.of_element {x : Check Unit}
    (hx : ∀ s, Fit inner s → Spares x s fun _ _ => True)
    (hd : ∀ s, s.body.isSome = inner → Ends x s (fun _ s' => ∃ b, Grown [b] s s' ∧
      ∃ e, b.holding = .element e) (fun _ _ => True)) : Safe inner x := by
  intro s hs
  refine ((hx s hs).with_ends (hd s hs.inner)).mono ?_
  rintro _ s' ⟨_, b, hg, e, he⟩
  refine hs.grown hg fun c hc u hu => ?_
  rw [List.mem_singleton.mp hc, Binding.udt?, he] at hu
  cases hu

theorem safe_globalVariable {d : VariableDecl} (h : d.Sound) : Safe false (globalVariable d) := by
  refine .of_element (fun s hs => ?_) fun s hs => (globalVariable_ends d hs).mono
    (fun _ _ ⟨b, hg, hv⟩ => ⟨b, hg, _, hv.holding⟩) fun _ _ _ => trivial
  refine announced_spares hs h.name fun id t n ht => ?_
  refine (safe_forM_option (fun e he => safe_literalFor id t (h.value e he)) s hs).bind ?_
  intro _ s₁ _
  exact (declareValue_spares ht).bind fun e s₂ _ => Ends.modify trivial

theorem safe_localVariable {d : VariableDecl} (h : d.Sound) : Safe true (localVariable d) := by
  refine .of_element (fun s hs => ?_) fun s hs => (localVariable_ends d hs).mono
    (fun _ _ ⟨b, hg, hv⟩ => ⟨b, hg, _, hv.holding⟩) fun _ _ _ => trivial
  refine announced_spares hs h.name fun id t n ht => ?_
  refine (safe_forM_option (fun e he => safe_valueFor t (h.value e he)) s hs).bind ?_
  intro _ s₁ _
  exact (declareValue_spares ht).bind fun e s₂ _ => Ends.modify trivial

theorem safe_constant {d : ConstantDecl} (h : d.Sound) : Safe inner (constant d) := by
  refine .of_element (fun s hs => ?_) fun s _ => (constant_ends d).mono
    (fun _ _ ⟨b, hg, hv⟩ => ⟨b, hg, _, hv.holding⟩) fun _ _ _ => trivial
  refine announced_spares hs h.name fun id t n ht => ?_
  refine (safe_literalFor id t h.value s hs).bind fun _ s₁ _ => ?_
  refine (declareValue_spares ht).bind fun e s₂ _ => Ends.bind (Ends.get ?_)
  split
  · exact Ends.modify trivial
  · exact Ends.modify trivial

theorem safe_pushParameter {f : Field} (h : f.Sound) : Safe true (pushParameter f) := by
  refine .of_element (fun s hs => ?_) fun s hs => (pushParameter_ends f hs).mono
    (fun _ _ ⟨b, hg, hv⟩ => ⟨b, hg, _, hv.holding⟩) fun _ _ _ => trivial
  refine announced_spares hs h.name fun id t n ht => ?_
  exact (declareValue_spares ht).bind fun e s₂ _ => Ends.modify trivial

theorem safe_parameter {f : Field} (h : f.Sound) : Safe inner (parameter f) := by
  refine .of_notes (notes_parameter f) fun s _ => (nameOf_spares h.name).bind ?_
  rintro id s ⟨rfl, _⟩
  refine (resolve_spares _).bind ?_
  rintro t s ⟨rfl, hr⟩
  exact (intern_spares hr.based _).bind fun _ _ _ => Ends.pure trivial

theorem safe_parameters {fs : List Field} (h : ∀ f ∈ fs, f.Sound) :
    Safe inner (fs.mapM parameter) := by
  induction fs with
  | nil => exact .pure []
  | cons f fs ih =>
    rw [List.forall_mem_cons] at h
    rw [List.mapM_cons]
    exact (safe_parameter h.1).bind fun p => (ih h.2).bind fun ps => .pure _

theorem safe_returnType (a : Option Annotation) : Safe inner (a.mapM returnType) := by
  refine .of_notes (notes_returnType a) fun s _ => ?_
  cases a with
  | none => exact Ends.pure trivial
  | some a =>
    refine Ends.map ((resolve_spares a).bind ?_)
    rintro t s ⟨rfl, hr⟩
    exact (intern_spares hr.based _).bind fun _ _ _ => Ends.pure trivial

theorem safe_functionName {d : FunctionDef} (h : d.Sound) : Safe false (functionName d) := by
  refine .of_element (fun s hs => ?_) fun s hs => (functionName_ends d hs).mono
    (fun _ _ ⟨b, hg, _, sig, he, _⟩ => ⟨b, hg, _, he⟩) fun _ _ _ => trivial
  refine (nameOf_spares h.name).bind ?_
  rintro id s ⟨rfl, _⟩
  refine (requireNew_spares id _).bind ?_
  rintro _ s rfl
  refine (safe_parameters h.params s hs).bind fun ps s₁ hs₁ => ?_
  refine (safe_returnType d.returns s₁ hs₁).bind fun r s₂ _ => ?_
  exact Ends.bind (Ends.modify (Ends.modify trivial))

/-! ### Statements -/

theorem safe_condition {e : Expr} (h : e.Sound) : Safe inner (condition e) := by
  refine (safe_value h).bind fun t => ?_
  split
  · exact .pure _
  · exact .fail rfl

theorem safe_assignment {target source : Expr} (op : Token) (ht : target.Sound)
    (ha : target.isAssignable = true) (hv : source.Sound) :
    Safe inner (assignment target op source) := by
  obtain ⟨root, hroot⟩ := Option.isSome_iff_exists.mp ha
  have hok : rootOf target op = .ok root := by simp [rootOf, hroot]
  intro s hs
  refine (safe_value ht s hs).bind fun t s₁ hs₁ => ?_
  refine (ofExcept_spares fun f hf => by simp [hok] at hf).bind ?_
  rintro root' s₁ ⟨rfl, hr⟩
  obtain rfl : root = root' := by simpa [hok] using hr
  refine (Safe.nameOf (ht.root hroot) s₁ hs₁).bind fun id s₂ hs₂ => ?_
  refine (safe_lookup? id s₂ hs₂).bind fun x s₃ hs₃ => ?_
  split
  · exact Spares.fail rfl
  · refine (safe_value hv s₃ hs₃).bind fun v s₄ hs₄ => ?_
    split
    · exact Ends.pure hs₄
    · exact Spares.fail rfl

theorem safe_ret (token : Token) {result : Option Expr} (h : ∀ e ∈ result, e.Sound) :
    Safe true (ret token result) := by
  intro s hs
  refine Ends.bind (Ends.get ?_)
  split
  · next hb =>
    have hi := hs.inner
    simp [hb] at hi
  · split
    · exact Ends.pure hs
    · exact Spares.fail rfl
    · exact Spares.fail rfl
    · next expected e _ =>
      refine (safe_value (h e rfl) s hs).bind fun found s₁ hs₁ => ?_
      split
      · exact Ends.pure hs₁
      · exact Spares.fail rfl

theorem Fit.opened (h : Fit true s) : Fit true (opened s) :=
  ⟨(leads_opened h.inner).kept h.kept, h.closed, h.inner⟩

/-- A step in a scope of its own is safe if it is safe there. -/
theorem safe_scoped {x : Check Unit} (hx : Safe true x) (hg : Grows true x) :
    Safe true (do
      openScope
      x
      closeScope) := by
  intro s hs
  refine Ends.bind (openScope_ends ?_)
  refine ((hx _ hs.opened).with_ends (hg _ hs.inner)).bind ?_
  rintro _ s₁ ⟨_, bs, h₁⟩
  exact (closeScope_ends h₁ hs.inner).mono (fun _ _ h => hs.noted h) fun _ _ h => h.elim

mutual

theorem safe_stmt : ∀ st : Stmt, st.Sound → Safe true (stmt st)
  | .varDecl d, h => by
    rw [stmt]
    exact safe_localVariable (by simpa [Stmt.Sound] using h)
  | .constDecl d, h => by
    rw [stmt]
    exact safe_constant (by simpa [Stmt.Sound] using h)
  | .typeDef d, h => by
    rw [stmt]
    exact safe_types (by simpa [Stmt.Sound] using h)
  | .assign target op source, h => by
    rw [Stmt.Sound] at h
    rw [stmt]
    exact safe_assignment op h.1 h.2.1 h.2.2
  | .expr e, h => by
    rw [Stmt.Sound] at h
    rw [stmt]
    exact (safe_expr e h).bind fun _ => .pure ()
  | .branch _ c thenBlock none, h => by
    rw [Stmt.Sound] at h
    rw [stmt]
    exact (safe_condition h.1).bind fun _ => safe_block thenBlock h.2
  | .branch _ c thenBlock (some elseBlock), h => by
    rw [Stmt.Sound] at h
    rw [stmt]
    refine (safe_condition h.1).bind fun _ => ?_
    exact (safe_block thenBlock h.2.1).bind fun _ => safe_block elseBlock h.2.2
  | .loop _ c body, h => by
    rw [Stmt.Sound] at h
    rw [stmt]
    exact (safe_condition h.1).bind fun _ => safe_block body h.2
  | .ret token result, h => by
    rw [Stmt.Sound] at h
    rw [stmt]
    exact safe_ret token h
  | .block b, h => by
    rw [Stmt.Sound] at h
    rw [stmt]
    exact safe_block b h

theorem safe_block : ∀ b : Block, b.Sound → Safe true (block b)
  | ⟨_, _, body⟩, h => by
    rw [Block.Sound] at h
    rw [block]
    exact safe_scoped (safe_stmts body h) (grows_stmts body)

theorem safe_stmts : ∀ body : List Stmt, Stmt.SoundAll body → Safe true (stmts body)
  | [], _ => by
    rw [stmts]
    exact .pure ()
  | st :: rest, h => by
    rw [Stmt.SoundAll] at h
    rw [stmts]
    exact (safe_stmt st h.1).bind fun _ => safe_stmts rest h.2

end

/-! ### Functions and files -/

theorem returns_spares (a : Option Annotation) :
    Spares (a.mapM resolve) s fun _ s' => s' = s := by
  cases a with
  | none => exact Ends.pure rfl
  | some a => exact Ends.map ((resolve_spares a).mono fun _ _ h => h.1)

theorem Fit.entered (h : Fit inner s) (b : Body) : Fit true (Check.opened (Check.entered b s)) :=
  ⟨(leads_entered b).kept h.kept, h.closed, rfl⟩

theorem functionBody_spares {d : FunctionDef} (h : d.Sound) (hs : Fit inner s) :
    Spares (functionBody d) s fun _ _ => True := by
  refine (nameOf_spares h.name).bind ?_
  rintro id s ⟨rfl, _⟩
  refine (returns_spares d.returns).bind ?_
  rintro returns s rfl
  refine Ends.bind (Ends.modify (Ends.bind (openScope_ends ?_)))
  have hparams : Safe true (d.params.forM pushParameter) :=
    .forM fun f hf => safe_pushParameter (h.params f hf)
  refine (hparams _ (hs.entered ⟨id, returns, []⟩)).bind fun _ s₁ hs₁ => ?_
  refine (safe_stmts _ h.body.body s₁ hs₁).bind fun _ s₂ _ => ?_
  split
  · exact Spares.fail rfl
  · exact Ends.bind (Ends.modify (Ends.modify trivial))

theorem safe_functionBody {d : FunctionDef} (h : d.Sound) : Safe false (functionBody d) := by
  intro s hs
  have hbody : s.body = none := by simpa using hs.inner
  refine ((functionBody_spares h hs).with_ends (functionBody_ends d hbody)).mono ?_
  rintro _ s' ⟨_, hg⟩
  have hfit := hs.noted hg
  exact ⟨(leads_reframed _ s').kept hfit.kept, hfit.closed, hfit.inner⟩

theorem safe_item {i : Item} (h : i.Sound) : Safe false (item i) := by
  cases i with
  | function d => exact safe_functionName h
  | varDecl d => exact safe_globalVariable h
  | constDecl d => exact safe_constant h
  | importFile i => exact .pure ()
  | typeDef d => exact .pure ()

theorem safe_file {f : SourceFile} (h : ∀ i ∈ f.items, i.Sound) : Safe false (file f) := by
  refine (safe_types (SourceFile.types_sound h)).bind fun _ => ?_
  refine (Safe.forM fun i hi => safe_item (h i hi)).bind fun _ => ?_
  exact .forM fun d hd => safe_functionBody (SourceFile.functions_sound h d hd)

end Check

end StoragePlan
