import StoragePlan.Check.Stmt
import StoragePlan.Proofs.Shapes

/-!
Declaring variables, constants, parameters and functions. Each declaration that succeeds adds one
binding: a symbol and the element that storage holds for it.
-/

namespace StoragePlan

namespace Check

variable {s s' : Session}

/-- The session with one more symbol and its element. -/
def declared (types : TypeTable) (x : Symbol) (e : Element) (s : Session) : Session :=
  { s with
    memory := s.memory.grow s.body.isSome [e] []
    names := Registry.addSymbol s.file x { s.names with types := types } }

theorem Grown.declared (h : Grown [] s s') {types : TypeTable} {x : Symbol} {e : Element}
    (hg : s'.names.types.Grown types)
    (hm : s.names.types.Ordered → Binding.Matches types ⟨x, .element e⟩)
    (he : e.id = some x.id) (hf : s.body = none → s.memory.find? x.id = none)
    (hr : s.body.isSome = true → s.memory.stackSize + e.size ≤ maxStorage) :
    Grown [⟨x, .element e⟩] s (declared types x e s') where
  file := h.file
  memory := by
    simp only [Check.declared, h.memory_eq, h.isSome_body]
    rfl
  tables := by
    simp only [Check.declared, Registry.addSymbol, Registry.onTable, SymbolTable.add_eq_grow,
      h.tables_eq, h.file]
    rfl
  types := h.types.trans hg
  body := h.body
  frames := h.frames
  udts := by simpa [Check.declared, Binding.udt?] using h.udts
  sound ho b hb := List.mem_singleton.mp hb ▸ hm ho
  distinct hb hd := by
    have hi := hd.insert he (hf hb)
    rw [Tracker.insert_eq_grow, ← Option.isSome_none (α := Body), ← hb] at hi
    simpa only [Check.declared, h.memory_eq, h.isSome_body] using hi
  shapes _ hn := by simpa [Check.declared, h.memory_eq] using hn
  fits hs := by
    simp only [Check.declared, h.memory_eq, h.isSome_body, Tracker.Fits, Tracker.grow]
    cases hb : s.body.isSome with
    | false => simpa [Tracker.Fits] using hs
    | true =>
      have hroom : bytesOf s.memory.stack + e.size ≤ maxStorage := bytesOf_add_le (hr hb)
      simpa [Nat.add_comm] using hroom

/-! ### Variables and constants -/

/-- The binding of a value with this name, whose element found room in storage. -/
structure Values (name : Token) (e : Element) (s s' : Session) (b : Binding) : Prop where
  named : nameOf name = .ok b.symbol.id
  holding : b.holding = .element e
  room : used s + e.size ≤ maxStorage
  body : s'.body = s.body

/-- The symbol of a variable or of a constant. -/
def ValueKind (kind : Handle → SymbolKind) : Prop := kind = .var ∨ kind = .const

/-- The symbol is of this kind and seen by other files or not. -/
def Announces (kind : Handle → SymbolKind) (exported : Bool) (x : Symbol) : Prop :=
  x.exported = exported ∧ ∃ h, x.kind = kind h

theorem matches_value {types : TypeTable} {kind : Handle → SymbolKind} (hk : ValueKind kind)
    {id typeId : String} {h : Handle} {exported : Bool} {p : Position} {size : Nat} {v : Int}
    (hi : types.typeId? h = some typeId) :
    Binding.Matches types ⟨⟨id, kind h, exported, p⟩, .element (.named id typeId size v)⟩ := by
  rcases hk with rfl | rfl
  · exact ⟨typeId, size, v, rfl, hi⟩
  · exact ⟨typeId, size, v, rfl, hi⟩

/-- The element of a value is ready for storage when its symbol is declared. -/
theorem declareValue_ends {id : String} {kind : Handle → SymbolKind} (hk : ValueKind kind)
    (exported : Bool) (p : Position) (t : ValueType) (size : Nat) (v : Int)
    (hf : s.body = none → s.memory.find? id = none) :
    Ends (declareValue id kind exported p t size v) s
      (fun e s' => ∃ x types, x.id = id ∧ Announces kind exported x ∧ e = .named id t.typeId size v ∧
        Grown [⟨x, .element e⟩] s (declared types x e s) ∧ used s + size ≤ maxStorage ∧
        s' = { declared types x e s with memory := s.memory })
      (fun _ s' => s' = s) := by
  refine (requireRoom_ends id size p).seq (fun _ _ h => h.1) ?_
  rintro _ _ ⟨rfl, hroom⟩
  refine (intern_ends t p).seq (fun _ _ h => h.1) ?_
  rintro h _ ⟨types, rfl, hi⟩
  obtain ⟨hg, _, hid⟩ := TypeTable.intern?_grown hi
  refine Ends.bind (Ends.modify (Ends.pure ?_))
  refine ⟨⟨id, kind h, exported, p⟩, types, rfl, ⟨rfl, h, rfl⟩, rfl, ?_, hroom, rfl⟩
  refine (Grown.refl _).declared hg (fun ho => matches_value hk (hid ho)) rfl hf fun hb => ?_
  rwa [used, if_pos hb] at hroom

theorem notes_literalFor (id : String) (target : ValueType) (init : Expr) :
    Notes (literalFor id target init) := by
  unfold literalFor
  split
  · refine (notes_expr _).bind fun t => ?_
    split
    · exact .pure _
    · exact .fail _ _
  · exact .fail _ _

theorem notes_valueFor (target : ValueType) (init : Expr) : Notes (valueFor target init) := by
  refine (notes_value _).bind fun t => ?_
  split
  · exact .pure _
  · exact .fail _ _

/-- What a declaration of a value does before its symbol is declared. -/
theorem annotated_ends (name : Token) (a : Annotation) {β : Type}
    {f : String → ValueType → Nat → Check β} {done : β → Session → Prop}
    {failed : SemanticFault → Session → Prop} (hfailed : ∀ e, failed e s)
    (h : ∀ id t n, nameOf name = .ok id → s.names.current? s.file id = none →
      (s.body = none → s.memory.find? id = none) → Resolves (Known s.names s.file) a t →
      t.size s.memory = .ok n → Ends (f id t n) s done failed) :
    Ends (do
      let id ← ofExcept (nameOf name)
      requireNew id name.position
      let t ← resolve a
      let n ← sizeOf t a.position
      f id t n) s done failed := by
  refine (ofExcept_ends _).seq (fun e _ h => h.1 ▸ hfailed e) ?_
  rintro id _ ⟨rfl, hid⟩
  refine (requireNew_ends id _).seq (fun e _ h => h.1 ▸ hfailed e) ?_
  rintro _ _ ⟨rfl, hc, hf⟩
  refine (resolve_ends a).seq (fun e _ h => h.1 ▸ hfailed e) ?_
  rintro t _ ⟨rfl, hr⟩
  refine (sizeOf_ends t _).seq (fun e _ h => h.1 ▸ hfailed e) ?_
  rintro n _ ⟨rfl, hn⟩
  exact h id t n hid hc hf hr hn

/-- The end of a declaration of a value: an initializer is checked and the value declared. -/
theorem initialized_ends {name : Token} {a : Annotation} {id : String} {t : ValueType}
    {kind : Handle → SymbolKind} (hk : ValueKind kind) (exported : Bool) (size : Nat) (v : Int)
    (init : Check Unit) (hinit : Notes init) {put : Element → Check Unit}
    (hput : ∀ e s₁ types x, s₁.body.isSome = s.body.isSome →
      Ends (put e) { declared types x e s₁ with memory := s₁.memory }
        (fun _ s' => s' = declared types x e s₁) (fun _ _ => False))
    (hid : nameOf name = .ok id) (hf : s.body = none → s.memory.find? id = none)
    (hr : Resolves (Known s.names s.file) a t) (hn : t.size s.memory = .ok size) :
    Ends (do
      init
      let e ← declareValue id kind exported name.position t size v
      put e) s
      (fun _ s' => ∃ b, Grown [b] s s' ∧ Values name (a.element s.memory.udts name v) s s' b ∧
        Announces kind exported b.symbol)
      (fun _ s' => Grown [] s s') := by
  refine (hinit s).seq (fun _ _ h => h.toGrown) fun _ s₁ h₁ => ?_
  have hf₁ : s₁.body = none → s₁.memory.find? id = none := by
    intro hb
    rw [h₁.memory_eq]
    apply hf
    rw [← Option.not_isSome_iff_eq_none, ← h₁.isSome_body, hb]
    simp
  have hwritten : a.element s.memory.udts name v = .named id t.typeId size v := by
    unfold Annotation.element
    rw [nameOf_eq_ok hid, ← hr.type, ValueType.size_eq_ok hn, Option.getD_some]
  refine (declareValue_ends hk exported name.position t size v hf₁).seq
    (fun _ _ h => h ▸ h₁.toGrown) ?_
  rintro e _ ⟨x, types, rfl, hx, rfl, hg, hroom, rfl⟩
  refine (hput _ s₁ types x h₁.isSome_body).mono ?_ (fun _ _ h => h.elim)
  rintro _ _ rfl
  rw [hwritten]
  have hused : used s₁ = used s := by simp only [used, h₁.memory_eq, h₁.isSome_body]
  exact ⟨_, h₁.toGrown.trans hg, ⟨hid, rfl, hused ▸ hroom, h₁.same⟩, hx⟩

theorem push_ends {e : Element} {types : TypeTable} {x : Symbol} (hb : s.body.isSome = true) :
    Ends (onMemory (·.push e)) { declared types x e s with memory := s.memory }
      (fun _ s' => s' = declared types x e s) (fun _ _ => False) := by
  refine Ends.modify ?_
  simp only [declared, hb, Tracker.push_eq_grow]

theorem insert_ends {e : Element} {types : TypeTable} {x : Symbol} (hb : s.body.isSome = false) :
    Ends (onMemory (·.insert e)) { declared types x e s with memory := s.memory }
      (fun _ s' => s' = declared types x e s) (fun _ _ => False) := by
  refine Ends.modify ?_
  simp only [declared, hb, Tracker.insert_eq_grow]

theorem globalVariable_announces (d : VariableDecl) (hs : s.body.isSome = false) :
    Ends (globalVariable d) s
      (fun _ s' => ∃ b, Grown [b] s s' ∧ Values d.name (d.element s.memory.udts) s s' b ∧
        Announces .var d.exported b.symbol)
      (fun _ s' => Grown [] s s') := by
  refine annotated_ends d.name d.annotation (fun _ => .refl s) fun id t n hid _ hf hr hn => ?_
  rw [VariableDecl.element, ← map_storedValue]
  refine initialized_ends (.inl rfl) _ _ _ _ (.forM_option (fun e => notes_literalFor id t e) _)
    (fun e s₁ types x hb => ?_) hid hf hr hn
  exact insert_ends (hb.trans hs)

theorem globalVariable_ends (d : VariableDecl) (hs : s.body.isSome = false) :
    Ends (globalVariable d) s
      (fun _ s' => ∃ b, Grown [b] s s' ∧ Values d.name (d.element s.memory.udts) s s' b)
      (fun _ s' => Grown [] s s') :=
  (globalVariable_announces d hs).mono (fun _ _ ⟨b, hg, hv, _⟩ => ⟨b, hg, hv⟩) fun _ _ h => h

theorem localVariable_ends (d : VariableDecl) (hs : s.body.isSome = true) :
    Ends (localVariable d) s
      (fun _ s' => ∃ b, Grown [b] s s' ∧ Values d.name (d.element s.memory.udts) s s' b)
      (fun _ s' => Grown [] s s') := by
  refine annotated_ends d.name d.annotation (fun _ => .refl s) fun id t n hid _ hf hr hn => ?_
  rw [VariableDecl.element, ← map_storedValue]
  refine (initialized_ends (.inl rfl) false _ _ _ (.forM_option (fun e => notes_valueFor t e) _)
    (fun e s₁ types x hb => push_ends (hb.trans hs)) hid hf hr hn).mono ?_ fun _ _ h => h
  exact fun _ _ ⟨b, hg, hv, _⟩ => ⟨b, hg, hv⟩

theorem constant_announces (d : ConstantDecl) :
    Ends (constant d) s
      (fun _ s' => ∃ b, Grown [b] s s' ∧ Values d.name (d.element s.memory.udts) s s' b ∧
        Announces .const d.exported b.symbol)
      (fun _ s' => Grown [] s s') := by
  refine annotated_ends d.name d.annotation (fun _ => .refl s) fun id t n hid _ hf hr hn => ?_
  rw [ConstantDecl.element, ← storedValue_eq]
  refine initialized_ends (.inr rfl) _ _ _ _ (notes_literalFor id t d.value)
    (fun e s₁ types x hb => ?_) hid hf hr hn
  refine Ends.bind (Ends.get ?_)
  split
  · next h => exact push_ends h
  · next h => exact insert_ends (by simpa [declared] using h)

theorem constant_ends (d : ConstantDecl) :
    Ends (constant d) s
      (fun _ s' => ∃ b, Grown [b] s s' ∧ Values d.name (d.element s.memory.udts) s s' b)
      (fun _ s' => Grown [] s s') :=
  (constant_announces d).mono (fun _ _ ⟨b, hg, hv, _⟩ => ⟨b, hg, hv⟩) fun _ _ h => h

theorem pushParameter_ends (f : Field) (hs : s.body.isSome = true) :
    Ends (pushParameter f) s
      (fun _ s' => ∃ b, Grown [b] s s' ∧ Values f.name (f.element s.memory.udts) s s' b)
      (fun _ s' => Grown [] s s') := by
  refine annotated_ends f.name f.annotation (fun _ => .refl s) fun id t n hid _ hf hr hn => ?_
  refine (initialized_ends (.inl rfl) false _ _ (pure ()) (.pure ())
    (fun e s₁ types x hb => push_ends (hb.trans hs)) hid hf hr hn).mono ?_ fun _ _ h => h
  exact fun _ _ ⟨b, hg, hv, _⟩ => ⟨b, hg, hv⟩

/-! ### Functions -/

theorem Grown.known {bs : List Binding} (h : Grown bs s s') {id : String}
    (hk : Known s'.names s'.file id) : Among (bs.map (·.symbol.id)) s id := by
  obtain ⟨x, hx, hu⟩ := hk
  rw [h.lookup?_names] at hx
  rcases Known.of_grow ⟨x, hx, hu⟩ with hm | hk
  · exact .inl (by simpa using hm)
  · exact .inr hk

theorem Grown.known_nil (h : Grown [] s s') {id : String} (hk : Known s'.names s'.file id) :
    Known s.names s.file id := (h.known hk).resolve_left (by simp)

theorem Writes.mono {known known' : String → Prop} {a : Annotation} {typeId : String}
    (h : Writes known a typeId) (hk : ∀ id, known id → known' id) : Writes known' a typeId := by
  obtain ⟨t, hr, ht⟩ := h
  exact ⟨t, hr.mono hk, ht⟩

/-- A type that is written gets a handle with its id. -/
theorem written_ends (a : Annotation) {β : Type} {f : ValueType → Handle → Check β}
    {done : β → Session → Prop} {failed : SemanticFault → Session → Prop}
    (hfailed : ∀ e, failed e s)
    (h : ∀ t k s', Grown [] s s' → Resolves (Known s.names s.file) a t →
      (s.names.types.Ordered → s'.names.types.typeId? k = some t.typeId) →
      Ends (f t k) s' done failed) :
    Ends (do
      let t ← resolve a
      let k ← intern t a.position
      f t k) s done failed := by
  refine (resolve_ends a).seq (fun e _ h => h.1 ▸ hfailed e) ?_
  rintro t _ ⟨rfl, hr⟩
  refine (intern_ends t _).seq (fun e _ h => h.1 ▸ hfailed e) ?_
  rintro k _ ⟨types, rfl, hi⟩
  exact h t k _ (grown_intern hi) hr (TypeTable.intern?_grown hi).2.2

theorem parameter_ends (f : Field) :
    Ends (parameter f) s
      (fun p s' => Grown [] s s' ∧
        (s.names.types.Ordered →
          TypedName.spelled s'.names.types [p.1] = Member.spelled [p.2]) ∧
        Writes (Known s.names s.file) f.annotation p.2.typeId ∧ p.2 = f.member)
      (fun _ s' => Grown [] s s') := by
  refine (ofExcept_ends _).seq (fun e _ h => h.1 ▸ .refl s) ?_
  rintro id _ ⟨rfl, hid⟩
  refine written_ends f.annotation (fun _ => .refl _) fun t k s' hg hr hk => ?_
  refine Ends.pure ⟨hg, fun ho => ?_, ⟨t, hr, rfl⟩, ?_⟩
  · simp [TypedName.spelled, Member.spelled, hk ho]
  · rw [Field.member, nameOf_eq_ok hid, ← hr.type, Option.getD_some]

theorem notes_parameter (f : Field) : Notes (parameter f) := by
  refine (notes_ofExcept _).bind fun id => (notes_resolve f.annotation).bind fun t => ?_
  exact (notes_intern t _).bind fun h => .pure _

theorem notes_returnType (a : Option Annotation) : Notes (a.mapM returnType) := by
  cases a with
  | none => exact .pure none
  | some a =>
    exact fun s => Ends.map
      (((notes_resolve a).bind fun t => (notes_intern t _).bind fun h => .pure _) s)

theorem parameters_ends (fs : List Field) :
    Ends (fs.mapM parameter) s
      (fun ps s' => Grown [] s s' ∧
        (s.names.types.Ordered →
          TypedName.spelled s'.names.types (ps.map (·.1)) = Member.spelled (ps.map (·.2))) ∧
        (∀ m ∈ ps.map (·.2), ∃ f ∈ fs, Writes (Known s.names s.file) f.annotation m.typeId) ∧
        ps.map (·.2) = fs.map (·.member))
      (fun _ s' => Grown [] s s') := by
  induction fs generalizing s with
  | nil => exact Ends.pure ⟨.refl s, fun _ => rfl, by simp, rfl⟩
  | cons f fs ih =>
    rw [List.mapM_cons]
    refine (parameter_ends f).seq (fun _ _ h => h) fun p s₁ ⟨h₁, hp, hw, hm⟩ => ?_
    refine ih.seq (fun _ _ h => h₁.trans h) fun ps s₂ ⟨h₂, hps, hws, hms⟩ => ?_
    refine Ends.pure ⟨h₁.trans h₂, fun ho => ?_, List.forall_mem_cons.mpr ⟨?_, fun m hm => ?_⟩, ?_⟩
    · have ho₁ := h₁.types.ordered ho
      have hp₂ := TypedName.spelled_mono ho₁ h₂.types (hp ho)
      have hps₂ := hps ho₁
      simp only [TypedName.spelled, Member.spelled, List.map_cons, List.map_nil,
        List.cons.injEq] at hp₂ hps₂ ⊢
      exact ⟨hp₂.1, hps₂⟩
    · exact ⟨f, List.mem_cons_self, hw⟩
    · obtain ⟨f', hf', hw'⟩ := hws m hm
      exact ⟨f', List.mem_cons_of_mem _ hf', hw'.mono fun id => h₁.known_nil⟩
    · rw [List.map_cons, List.map_cons, hm, hms]

theorem returnType_ends (a : Option Annotation) :
    Ends (a.mapM returnType) s
      (fun r s' => Grown [] s s' ∧
        (s.names.types.Ordered →
          (r.map (·.1)).map s'.names.types.typeId? = (r.map (·.2)).map some) ∧
        (∀ typeId, r.map (·.2) = some typeId →
          ∃ a', a = some a' ∧ Writes (Known s.names s.file) a' typeId) ∧
        r.map (·.2) = a.map (·.type.typeId))
      (fun _ s' => Grown [] s s') := by
  cases a with
  | none => exact Ends.pure ⟨.refl s, fun _ => rfl, by simp, rfl⟩
  | some a =>
    refine Ends.map (written_ends a (fun _ => .refl _) fun t k s' hg hr hk => ?_)
    refine Ends.pure ⟨hg, fun ho => by simp [hk ho], fun typeId ht => ⟨a, rfl, t, hr, ?_⟩, ?_⟩
    · exact (Option.some.inj ht).symm
    · simp [hr.type]

/-- The binding of a function with the name and the types that its definition writes. -/
def Signs (d : FunctionDef) (s : Session) (b : Binding) : Prop :=
  nameOf d.name = .ok b.symbol.id ∧ ∃ sig : Signature, b.holding = .element (.function sig) ∧
    (∀ m ∈ sig.params, ∃ f ∈ d.params, Writes (Known s.names s.file) f.annotation m.typeId) ∧
    ∀ typeId, sig.returns = some typeId →
      ∃ a, d.returns = some a ∧ Writes (Known s.names s.file) a typeId

theorem functionName_announces (d : FunctionDef) (hs : s.body.isSome = false) :
    Ends (functionName d) s
      (fun _ s' => ∃ b, Grown [b] s s' ∧ Signs d s b ∧
        b.holding = .element (.function d.signature) ∧ b.symbol.exported = d.exported ∧
        ∃ args returns, b.symbol.kind = .function args returns)
      (fun _ s' => Grown [] s s') := by
  refine (ofExcept_ends _).seq (fun e _ h => h.1 ▸ .refl s) ?_
  rintro id _ ⟨rfl, hid⟩
  refine (requireNew_ends id _).seq (fun e _ h => h.1 ▸ .refl _) ?_
  rintro _ s ⟨rfl, _, hf⟩
  refine (parameters_ends d.params).seq (fun _ _ h => h) fun ps s₁ ⟨h₁, hps, hws, hms⟩ => ?_
  refine (returnType_ends d.returns).seq (fun _ _ h => h₁.trans h)
    fun r s₂ ⟨h₂, hr, hw, ht⟩ => ?_
  have h := h₁.trans h₂
  have hb : s₂.body.isSome = false := h.isSome_body.trans hs
  refine Ends.bind (Ends.modify (Ends.modify ?_))
  let x : Symbol := ⟨id, .function (ps.map (·.1)) (r.map (·.1)), d.exported, d.name.position⟩
  let sig : Signature := ⟨id, ps.map (·.2), r.map (·.2)⟩
  have hd : Grown [⟨x, .element (.function sig)⟩] s
      (declared s₂.names.types x (.function sig) s₂) := by
    refine h.declared (.refl _) (fun ho => ⟨sig, rfl, rfl, ?_, hr (h₁.types.ordered ho)⟩) rfl hf
      (fun hb => by simp [hs] at hb)
    exact TypedName.spelled_mono (h₁.types.ordered ho) h₂.types (hps ho)
  have hsig : sig = d.signature := by
    rw [FunctionDef.signature, nameOf_eq_ok hid, Option.getD_some, ← hms, ← ht]
  refine ⟨⟨x, .element (.function sig)⟩, ?_, ⟨hid, sig, rfl, hws, fun typeId ht => ?_⟩, by rw [hsig],
    rfl, _, _, rfl⟩
  · simp only [declared, hb, ← Tracker.insert_eq_grow] at hd
    exact hd
  · obtain ⟨a, ha, hwr⟩ := hw typeId ht
    exact ⟨a, ha, hwr.mono fun id => h₁.known_nil⟩

theorem functionName_ends (d : FunctionDef) (hs : s.body.isSome = false) :
    Ends (functionName d) s (fun _ s' => ∃ b, Grown [b] s s' ∧ Signs d s b)
      (fun _ s' => Grown [] s s') :=
  (functionName_announces d hs).mono (fun _ _ ⟨b, hg, hd, _⟩ => ⟨b, hg, hd⟩) fun _ _ h => h

end Check

end StoragePlan
