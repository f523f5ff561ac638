import StoragePlan.Proofs.Files
import StoragePlan.Proofs.Outlines

/-!
Checking again. Two sessions are alike if they differ only in the handles that types have been given
and in what has been recorded of the file. No declaration at the top level looks at either, so from
two such sessions it fails with the same fault or succeeds both times.
-/

namespace StoragePlan

variable {ε σ α β : Type}

/-- From `s` the step `x` and from `t` the step `y` both succeed as `done` says, or both fail with
the same error. -/
def Echoes (x y : EStateM ε σ α) (s t : σ) (done : α → α → σ → σ → Prop) : Prop :=
  match x s, y t with
  | .ok a s', .ok b t' => done a b s' t'
  | .error e _, .error e' _ => e' = e
  | _, _ => False

namespace Echoes

variable {x y : EStateM ε σ α} {f g : α → EStateM ε σ β} {s s' t : σ}
  {done done' : α → α → σ → σ → Prop}

theorem error {e : ε} (h : Echoes x y s t done) (hx : x s = .error e s') :
    ∃ t', y t = .error e t' := by
  unfold Echoes at h
  rw [hx] at h
  cases hy : y t with
  | ok b t' => simp [hy] at h
  | error e' t' => exact ⟨t', by simpa [hy] using h⟩

theorem pure {a b : α} (h : done a b s t) :
    Echoes (Pure.pure a : EStateM ε σ α) (Pure.pure b) s t done := h

theorem throw (e : ε) :
    Echoes (MonadExcept.throw e : EStateM ε σ α) (MonadExcept.throw e) s t done := rfl

theorem bind {done : β → β → σ → σ → Prop}
    (h : Echoes x y s t fun a b s' t' => Echoes (f a) (g b) s' t' done) :
    Echoes (x >>= f) (y >>= g) s t done := by
  unfold Echoes at h ⊢
  change match EStateM.bind x f s, EStateM.bind y g t with
    | .ok a s', .ok b t' => done a b s' t'
    | .error e _, .error e' _ => e' = e
    | _, _ => False
  unfold EStateM.bind
  cases hx : x s with
  | ok a s' =>
    cases hy : y t with
    | ok b t' => simpa only [hx, hy] using h
    | error e t' => simp [hx, hy] at h
  | error e s' =>
    cases hy : y t with
    | ok b t' => simp [hx, hy] at h
    | error e' t' => simpa only [hx, hy] using h

theorem mono (h : Echoes x y s t done) (hd : ∀ a b s' t', done a b s' t' → done' a b s' t') :
    Echoes x y s t done' := by
  unfold Echoes at h ⊢
  split at h
  · next hx hy => exact hd _ _ _ _ h
  · next hx hy => exact h
  · exact h

theorem seq {done : β → β → σ → σ → Prop} {mid : α → α → σ → σ → Prop} (h : Echoes x y s t mid)
    (hf : ∀ a b s' t', mid a b s' t' → Echoes (f a) (g b) s' t' done) :
    Echoes (x >>= f) (y >>= g) s t done := bind (h.mono hf)

theorem get {done : σ → σ → σ → σ → Prop} (h : done s t s t) :
    Echoes (MonadState.get : EStateM ε σ σ) MonadState.get s t done := h

theorem modify {k l : σ → σ} {done : PUnit → PUnit → σ → σ → Prop} (h : done ⟨⟩ ⟨⟩ (k s) (l t)) :
    Echoes (modify k : EStateM ε σ PUnit) (modify l) s t done := h

theorem set {s' t' : σ} {done : PUnit → PUnit → σ → σ → Prop} (h : done ⟨⟩ ⟨⟩ s' t') :
    Echoes (MonadStateOf.set s' : EStateM ε σ PUnit) (MonadStateOf.set t') s t done := h

theorem map {k : α → β} {done : β → β → σ → σ → Prop}
    (h : Echoes x y s t fun a b s' t' => done (k a) (k b) s' t') :
    Echoes (k <$> x) (k <$> y) s t done := by
  rw [map_eq_pure_bind, map_eq_pure_bind]
  exact bind (h.mono fun _ _ _ _ hd => Echoes.pure hd)

/-- What is known of each run by itself. -/
theorem and_ends {done₁ done₂ : α → σ → Prop} {failed₁ failed₂ : ε → σ → Prop}
    (h : Echoes x y s t done) (hx : Ends x s done₁ failed₁) (hy : Ends y t done₂ failed₂) :
    Echoes x y s t fun a b s' t' => done a b s' t' ∧ done₁ a s' ∧ done₂ b t' := by
  unfold Echoes at h ⊢
  split at h
  · next hx' hy' => exact ⟨h, hx.ok hx', hy.ok hy'⟩
  · exact h
  · exact h

theorem ok {a : α} (h : Echoes x y s t done) (hx : x s = .ok a s') :
    ∃ b t', y t = .ok b t' ∧ done a b s' t' := by
  unfold Echoes at h
  rw [hx] at h
  cases hy : y t with
  | ok b t' => exact ⟨b, t', rfl, by simpa [hy] using h⟩
  | error e t' => simp [hy] at h

/-- Without an answer to compare, one run succeeds if the other does. -/
theorem ok_iff {x y : EStateM ε σ PUnit} {done : PUnit → PUnit → σ → σ → Prop}
    (h : Echoes x y s t done) : (∃ s', x s = .ok ⟨⟩ s') ↔ ∃ t', y t = .ok ⟨⟩ t' := by
  constructor
  · rintro ⟨s', hx⟩
    obtain ⟨_, t', hy, _⟩ := h.ok hx
    exact ⟨t', hy⟩
  · rintro ⟨t', hy⟩
    cases hx : x s with
    | ok _ s' => exact ⟨s', rfl⟩
    | error e s' =>
      obtain ⟨t'', he⟩ := h.error hx
      rw [hy] at he
      cases he

end Echoes

/-- A type has a handle or not, whatever else the table holds. -/
theorem TypeTable.isSome_intern? (t t' : TypeTable) (ty : ValueType) :
    (t'.intern? ty).isSome = (t.intern? ty).isSome := by
  induction ty with
  | prim p => rfl
  | udt id => rfl
  | undefined => rfl
  | array element dims ih =>
    cases h : t.intern? element with
    | none =>
      have h' : t'.intern? element = none := by simpa [h] using ih
      simp [intern?, h, h']
    | some r =>
      obtain ⟨r', h'⟩ := Option.isSome_iff_exists.mp (ih.trans (by simp [h]))
      simp [intern?, h, h']

namespace Check

/-- Place, storage and the outline of the names are the same. -/
structure Alike (s t : Session) : Prop where
  file : t.file = s.file
  memory : t.memory = s.memory
  outline : t.names.outline = s.names.outline
  body : t.body = s.body

variable {s t : Session}

/-- A name means the same in both, but for handles. -/
theorem Alike.lookup? (h : Alike s t) (id : String) :
    (t.names.lookup? t.file id).map Symbol.outline =
      (s.names.lookup? s.file id).map Symbol.outline := by
  rw [← Registry.lookup?_outline, ← Registry.lookup?_outline, h.outline, h.file]

/-- The steps answer the same and leave the sessions alone. -/
def Same (s t : Session) (a b : α) (s' t' : Session) : Prop := b = a ∧ s' = s ∧ t' = t

theorem echoes_ofExcept (y : Except SemanticFault α) :
    Echoes (ofExcept y) (ofExcept y) s t (Same s t) := by
  cases y with
  | ok a => exact Echoes.pure ⟨rfl, rfl, rfl⟩
  | error f => exact Echoes.throw f

theorem echoes_requireNew (h : Alike s t) (id : String) (p : Position) :
    Echoes (requireNew id p) (requireNew id p) s t (Same s t) := by
  have hc : (t.names.current? t.file id).map Symbol.outline =
      (s.names.current? s.file id).map Symbol.outline := by
    rw [← Registry.current?_outline, ← Registry.current?_outline, h.outline, h.file]
  refine Echoes.bind (Echoes.get ?_)
  rw [h.body, h.memory]
  cases hs : s.names.current? s.file id with
  | some x =>
    obtain ⟨y, ht, hxy⟩ := Option.map_eq_some_iff.mp (hc.trans (by rw [hs, Option.map_some]))
    rw [ht]
    dsimp only
    rw [Symbol.position_congr hxy]
    exact Echoes.throw _
  | none =>
    have ht : t.names.current? t.file id = none := by simpa [hs] using hc
    rw [ht]
    dsimp only
    split
    · exact Echoes.throw _
    · exact Echoes.pure ⟨rfl, rfl, rfl⟩

theorem echoes_requireRoom (h : Alike s t) (id : String) (size : Nat) (p : Position) :
    Echoes (requireRoom id size p) (requireRoom id size p) s t (Same s t) := by
  refine Echoes.bind (Echoes.get ?_)
  dsimp only
  rw [h.body, h.memory]
  generalize (if s.body.isSome then s.memory.stackSize else s.memory.dataSize) = used
  split
  · exact Echoes.pure ⟨rfl, rfl, rfl⟩
  · exact Echoes.throw _

theorem echoes_resolve (h : Alike s t) (a : Annotation) :
    Echoes (resolve a) (resolve a) s t (Same s t) := by
  have hb : baseType t.names t.file a = baseType s.names s.file a := by
    have hl := congrArg (Option.map Symbol.isUdt) (h.lookup? a.baseName)
    simp only [Option.map_map, Function.comp_def, Symbol.isUdt_outline] at hl
    unfold baseType
    cases hs : s.names.lookup? s.file a.baseName with
    | none =>
      rw [hs] at hl
      rw [Option.map_eq_none_iff.mp hl]
    | some x =>
      rw [hs] at hl
      obtain ⟨y, ht, hxy⟩ := Option.map_eq_some_iff.mp hl
      simp only [ht, hxy]
  refine Echoes.bind (Echoes.get ?_)
  rw [hb]
  refine (echoes_ofExcept _).seq ?_
  rintro _ base s t ⟨rfl, rfl, rfl⟩
  split
  · refine (echoes_ofExcept _).seq ?_
    rintro _ ds s t ⟨rfl, rfl, rfl⟩
    exact Echoes.pure ⟨rfl, rfl, rfl⟩
  · exact Echoes.pure ⟨rfl, rfl, rfl⟩

theorem echoes_sizeOf (h : Alike s t) (ty : ValueType) (p : Position) :
    Echoes (sizeOf ty p) (sizeOf ty p) s t (Same s t) := by
  refine Echoes.bind (Echoes.get ?_)
  rw [h.memory]
  split
  · exact Echoes.pure ⟨rfl, rfl, rfl⟩
  · exact Echoes.throw _

theorem echoes_intern? (h : Alike s t) (ty : ValueType) :
    Echoes (intern? ty) (intern? ty) s t fun a b s' t' => b.isSome = a.isSome ∧ Alike s' t' := by
  have hi := TypeTable.isSome_intern? s.names.types t.names.types ty
  refine Echoes.bind (Echoes.get ?_)
  split
  · next hs =>
    split
    · next ht => exact Echoes.bind (Echoes.set (Echoes.pure ⟨rfl, h.file, h.memory, h.outline, h.body⟩))
    · next ht => simp [hs, ht] at hi
  · next hs =>
    split
    · next ht => simp [hs, ht] at hi
    · next ht => exact Echoes.pure ⟨rfl, h⟩

theorem echoes_intern (h : Alike s t) (ty : ValueType) (p : Position) :
    Echoes (intern ty p) (intern ty p) s t fun _ _ s' t' => Alike s' t' := by
  refine (echoes_intern? h ty).seq ?_
  rintro (_ | a) (_ | b) s' t' ⟨hs, h'⟩
  · exact Echoes.throw _
  · cases hs
  · cases hs
  · exact Echoes.pure h'

theorem echoes_record (h : Alike s t) (id : Nat) (ty : ValueType) :
    Echoes (record id ty) (record id ty) s t fun a b s' t' => b = a ∧ Alike s' t' := by
  refine (echoes_intern? h ty).seq ?_
  rintro (_ | a) (_ | b) s' t' ⟨hs, h'⟩
  · exact Echoes.bind (Echoes.pure (Echoes.pure ⟨rfl, h'⟩))
  · cases hs
  · cases hs
  · refine Echoes.bind (Echoes.modify (Echoes.pure ⟨rfl, ?_⟩))
    exact ⟨h'.file, h'.memory, h'.outline, h'.body⟩

/-! ### Declarations at the top level -/

/-- Whatever the steps answer and leave. -/
def Anyhow (_ _ : α) (_ _ : Session) : Prop := True

theorem echoes_typeName (h : Alike s t) (d : TypeDef) :
    Echoes (typeName d) (typeName d) s t Anyhow := by
  refine (echoes_ofExcept _).seq ?_
  rintro _ id s t ⟨rfl, rfl, rfl⟩
  refine (echoes_requireNew h id _).seq ?_
  rintro _ _ s t ⟨_, rfl, rfl⟩
  refine Echoes.bind (Echoes.get ?_)
  rw [h.memory]
  split
  · exact Echoes.throw _
  · exact Echoes.modify trivial

theorem echoes_literalFor (h : Alike s t) (id : String) (target : ValueType) (init : Expr) :
    Echoes (literalFor id target init) (literalFor id target init) s t
      fun _ _ s' t' => Alike s' t' := by
  unfold literalFor
  split
  · rw [expr]
    refine Echoes.bind ((echoes_ofExcept _).seq ?_)
    rintro _ ty s t ⟨rfl, rfl, rfl⟩
    refine (echoes_record h _ ty).mono ?_
    rintro _ ty s' t' ⟨rfl, h'⟩
    split
    · exact Echoes.pure h'
    · exact Echoes.throw _
  · exact Echoes.throw _

theorem echoes_forM_option {γ : Type} {g : γ → Check PUnit} (h : Alike s t)
    (hg : ∀ c, Echoes (g c) (g c) s t fun _ _ s' t' => Alike s' t') (o : Option γ) :
    Echoes (o.forM g) (o.forM g) s t fun _ _ s' t' => Alike s' t' := by
  cases o with
  | none => exact Echoes.pure h
  | some c => exact hg c

theorem echoes_declareValue (h : Alike s t) (id : String) (kind : Handle → SymbolKind)
    (exported : Bool) (p : Position) (ty : ValueType) (size : Nat) (v : Int) :
    Echoes (declareValue id kind exported p ty size v) (declareValue id kind exported p ty size v)
      s t fun _ _ s' t' => t'.body = s'.body := by
  refine (echoes_requireRoom h id size p).seq ?_
  rintro _ _ s t ⟨_, rfl, rfl⟩
  refine (echoes_intern h ty p).seq fun _ _ s' t' h' => ?_
  exact Echoes.bind (Echoes.modify (Echoes.pure h'.body))

/-- A declaration of a value, up to its initializer. -/
theorem echoes_announced (h : Alike s t) (name : Token) (a : Annotation)
    {f : String → ValueType → Nat → Check β} {done : β → β → Session → Session → Prop}
    (hf : ∀ id ty n, Echoes (f id ty n) (f id ty n) s t done) :
    Echoes (do
      let id ← ofExcept (nameOf name)
      requireNew id name.position
      let ty ← resolve a
      let n ← sizeOf ty a.position
      f id ty n) (do
      let id ← ofExcept (nameOf name)
      requireNew id name.position
      let ty ← resolve a
      let n ← sizeOf ty a.position
      f id ty n) s t done := by
  refine (echoes_ofExcept _).seq ?_
  rintro _ id s t ⟨rfl, rfl, rfl⟩
  refine (echoes_requireNew h id _).seq ?_
  rintro _ _ s t ⟨_, rfl, rfl⟩
  refine (echoes_resolve h a).seq ?_
  rintro _ ty s t ⟨rfl, rfl, rfl⟩
  refine (echoes_sizeOf h ty _).seq ?_
  rintro _ n s t ⟨rfl, rfl, rfl⟩
  exact hf id ty n

theorem echoes_globalVariable (h : Alike s t) (d : VariableDecl) :
    Echoes (globalVariable d) (globalVariable d) s t Anyhow := by
  refine echoes_announced h d.name d.annotation fun id ty n => ?_
  refine (echoes_forM_option h (fun e => echoes_literalFor h id ty e) d.value).seq ?_
  intro _ _ s' t' h'
  refine (echoes_declareValue h' id _ _ _ ty n _).seq fun _ _ _ _ _ => ?_
  exact Echoes.modify trivial

theorem echoes_constant (h : Alike s t) (d : ConstantDecl) :
    Echoes (constant d) (constant d) s t Anyhow := by
  refine echoes_announced h d.name d.annotation fun id ty n => ?_
  refine (echoes_literalFor h id ty d.value).seq fun _ _ s' t' h' => ?_
  refine (echoes_declareValue h' id _ _ _ ty n _).seq fun _ _ s' t' hb => ?_
  refine Echoes.bind (Echoes.get ?_)
  rw [hb]
  split
  · exact Echoes.modify trivial
  · exact Echoes.modify trivial

theorem echoes_parameter (h : Alike s t) (f : Field) :
    Echoes (parameter f) (parameter f) s t fun _ _ s' t' => Alike s' t' := by
  refine (echoes_ofExcept _).seq ?_
  rintro _ id s t ⟨rfl, rfl, rfl⟩
  refine (echoes_resolve h f.annotation).seq ?_
  rintro _ ty s t ⟨rfl, rfl, rfl⟩
  exact (echoes_intern h ty _).seq fun _ _ _ _ h' => Echoes.pure h'

theorem echoes_parameters (h : Alike s t) (fs : List Field) :
    Echoes (fs.mapM parameter) (fs.mapM parameter) s t fun _ _ s' t' => Alike s' t' := by
  induction fs generalizing s t with
  | nil => exact Echoes.pure h
  | cons f fs ih =>
    rw [List.mapM_cons]
    refine (echoes_parameter h f).seq fun _ _ s' t' h' => ?_
    exact (ih h').seq fun _ _ _ _ h'' => Echoes.pure h''

theorem echoes_returnType (h : Alike s t) (a : Option Annotation) :
    Echoes (a.mapM returnType) (a.mapM returnType) s t fun _ _ s' t' => Alike s' t' := by
  cases a with
  | none => exact Echoes.pure h
  | some a =>
    refine Echoes.map ((echoes_resolve h a).seq ?_)
    rintro _ ty s t ⟨rfl, rfl, rfl⟩
    exact (echoes_intern h ty _).seq fun _ _ _ _ h' => Echoes.pure h'

theorem echoes_functionName (h : Alike s t) (d : FunctionDef) :
    Echoes (functionName d) (functionName d) s t Anyhow := by
  refine (echoes_ofExcept _).seq ?_
  rintro _ id s t ⟨rfl, rfl, rfl⟩
  refine (echoes_requireNew h id _).seq ?_
  rintro _ _ s t ⟨_, rfl, rfl⟩
  refine (echoes_parameters h d.params).seq fun _ _ s' t' h' => ?_
  refine (echoes_returnType h' d.returns).seq fun _ _ _ _ _ => ?_
  exact Echoes.bind (Echoes.modify (Echoes.modify trivial))

theorem echoes_item (h : Alike s t) (i : Item) : Echoes (item i) (item i) s t Anyhow := by
  cases i with
  | function d => exact echoes_functionName h d
  | varDecl d => exact echoes_globalVariable h d
  | constDecl d => exact echoes_constant h d
  | importFile i => exact Echoes.pure trivial
  | typeDef d => exact Echoes.pure trivial

end Check

end StoragePlan
