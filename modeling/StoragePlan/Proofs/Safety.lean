import StoragePlan.Proofs.Calls
import StoragePlan.Proofs.Sizes
import StoragePlan.Proofs.Trees
import StoragePlan.Proofs.TypeIds

/-!
The check of a sound tree breaks no promise. In a `Fit` session names, storage and types go together:
every name in sight has its element or its type, and every type that is active is built on active
types. A step of the check from a fit session ends in a fit session or fails through a fault of the
program, never through a promise that an earlier step has broken.
-/

namespace StoragePlan

theorem Token.Names.nameOf {t : Token} (h : t.Names) : ∃ id, StoragePlan.nameOf t = .ok id := by
  obtain ⟨id, hl, _⟩ := h
  exact ⟨id, by simp [StoragePlan.nameOf, Token.name?, hl]⟩

namespace Check

/-- The program is to blame. -/
def Harmless (f : SemanticFault) : Prop := f.cause.isInternal = false

/-- The step succeeds as `done` says or fails through a fault of the program. -/
def Spares {α : Type} (x : Check α) (s : Session) (done : α → Session → Prop) : Prop :=
  Ends x s done fun f _ => Harmless f

variable {α β : Type} {inner : Bool} {s s' : Session}

namespace Spares

variable {x : Check α} {f : α → Check β} {done done' : α → Session → Prop}

theorem mono (h : Spares x s done) (hd : ∀ a s', done a s' → done' a s') : Spares x s done' :=
  Ends.mono h hd fun _ _ hf => hf

theorem bind {done : β → Session → Prop} {mid : α → Session → Prop} (hx : Spares x s mid)
    (hf : ∀ a s', mid a s' → Spares (f a) s' done) : Spares (x >>= f) s done :=
  Ends.seq hx (fun _ _ hf => hf) hf

/-- What else is known of how the step ends. -/
theorem with_ends {failed : SemanticFault → Session → Prop} (h : Spares x s done)
    (h' : Ends x s done' failed) : Spares x s fun a s' => done a s' ∧ done' a s' :=
  (h.and h').mono (fun _ _ hd => hd) fun _ _ hf => hf.1

theorem fail {p : Position} {e : SemanticError} (he : e.isInternal = false) :
    Spares (Check.fail p e) s done := Ends.throw he

end Spares

/-! ### Small steps -/

theorem ofExcept_spares {x : Except SemanticFault α} (h : ∀ f, x = .error f → Harmless f) :
    Spares (ofExcept x) s fun a s' => s' = s ∧ x = .ok a :=
  (ofExcept_ends x).mono (fun _ _ hd => hd) fun f _ hf => h f hf.2

theorem nameOf_spares {t : Token} (h : t.Names) :
    Spares (ofExcept (nameOf t)) s fun id s' => s' = s ∧ nameOf t = .ok id := by
  obtain ⟨id, hid⟩ := h.nameOf
  exact ofExcept_spares fun f hf => by simp [hid] at hf

theorem requireNew_spares (id : String) (p : Position) :
    Spares (requireNew id p) s fun _ s' => s' = s := by
  refine (requireNew_ends id p).mono (fun _ _ h => h.1) ?_
  rintro f _ ⟨_, rfl | ⟨previous, _, rfl⟩⟩ <;> rfl

theorem requireRoom_spares (id : String) (size : Nat) (p : Position) :
    Spares (requireRoom id size p) s fun _ s' => s' = s :=
  (requireRoom_ends id size p).mono (fun _ _ h => h.1) fun f _ h => by
    rw [h.2]
    rfl

theorem resolve_spares (a : Annotation) :
    Spares (resolve a) s fun t s' => s' = s ∧ Resolves (Known s.names s.file) a t := by
  refine (resolve_ends a).mono (fun _ _ h => h) ?_
  rintro f _ ⟨_, rfl | rfl | ⟨p, d, rfl⟩⟩ <;> rfl

/-! ### Types as they are written -/

theorem dimensions_length {ds : List (Int × Position)} {ns : List Nat}
    (h : dimensions ds = .ok ns) : ns.length = ds.length := by
  induction ds generalizing ns with
  | nil =>
    cases h
    rfl
  | cons d ds ih =>
    unfold dimensions at h
    split at h
    · cases h
    · split at h
      · next hd =>
        cases h
        simp [ih hd]
      · cases h

theorem dimensions_le {ds : List (Int × Position)} {ns : List Nat} (h : dimensions ds = .ok ns)
    (hd : ∀ d ∈ ds, d.1 ≤ Token.maxInteger) : ∀ n ∈ ns, n ≤ wordLimit := by
  induction ds generalizing ns with
  | nil =>
    cases h
    simp
  | cons d ds ih =>
    rw [List.forall_mem_cons] at hd
    unfold dimensions at h
    split at h
    · cases h
    · split at h
      · next hds =>
        cases h
        refine List.forall_mem_cons.mpr ⟨?_, ih hds hd.2⟩
        have hle := hd.1
        unfold Token.maxInteger at hle
        unfold wordLimit
        omega
      · cases h

namespace Resolves

variable {known : String → Prop} {a : Annotation} {t : ValueType}

theorem based (h : Resolves known a t) : t.Based known := by
  obtain ⟨base, hb, ht⟩ := h
  have hbase : base.Based known := by
    split at hb
    · rw [hb]
      trivial
    · rw [hb.2]
      exact hb.1
  split at ht
  · obtain ⟨ds, _, rfl⟩ := ht
    exact hbase
  · rw [ht]
    exact hbase

/-- A sound annotation stands for a type that can be read back from its id. -/
theorem plain (h : Resolves known a t) (ha : a.Sound) : t.Plain := by
  obtain ⟨base, hb, ht⟩ := h
  have hsimple : base.Simple := by
    rcases ha.name with ⟨p, hp⟩ | ⟨id, hid, hname⟩
    · simp only [hp, Annotation.primitive?] at hb
      rw [hb]
      trivial
    · simp only [hid, Annotation.primitive?, Annotation.baseName] at hb
      rw [hb.2]
      exact hname
  split at ht
  · next harray =>
    obtain ⟨ds, hds, rfl⟩ := ht
    refine ⟨hsimple, fun hnil => ?_, dimensions_le hds ha.dims⟩
    have hlen := dimensions_length hds
    simp only [hnil, List.length_nil] at hlen
    have hdims := List.eq_nil_of_length_eq_zero hlen.symm
    simp [hdims, Annotation.isArray] at harray
  · rw [ht]
    cases base with
    | prim p => trivial
    | udt id => exact hsimple
    | array element dims => cases hsimple
    | undefined => cases hsimple

theorem ofId (h : Resolves known a t) (ha : a.Sound) : (ValueType.ofId t.typeId).Based known := by
  rw [ValueType.ofId_typeId (h.plain ha)]
  exact h.based

end Resolves

theorem intern_spares {t : ValueType} {known : String → Prop} (ht : t.Based known) (p : Position) :
    Spares (intern t p) s fun h s' =>
      ∃ types, s' = withTypes s types ∧ s.names.types.intern? t = some (h, types) := by
  have hd : t.Defined := by
    induction t with
    | prim p => trivial
    | udt id => trivial
    | array element dims ih => exact ih ht
    | undefined => exact ht
  refine (intern_ends t p).mono (fun _ _ h => h) fun f s' h => ?_
  have hi := TypeTable.intern?_isSome (t := s.names.types) hd
  simp [h.2.1] at hi

/-! ### Fit sessions -/

/-- Names and storage show one ledger, and the active types are built on active types. -/
structure Fit (inner : Bool) (s : Session) : Prop where
  kept : Kept s
  closed : s.memory.Closed
  inner : s.body.isSome = inner

namespace Fit

/-- What a name in sight means, storage has as well. -/
theorem found (h : Fit inner s) {id : String} {x : Symbol}
    (hx : s.names.lookup? s.file id = some x) (hu : x.isUdt = false) :
    (s.memory.find? id).isSome := by
  obtain ⟨l, hc, _⟩ := h.kept
  obtain ⟨b, hb, rfl, helement, _⟩ := hc.binding hx
  have hm := (hc.sound b hb).isUdt
  have he : ∃ e, b.element? = some e := by
    unfold Binding.element?
    unfold Binding.udt? at hm
    cases hh : b.holding with
    | element e => exact ⟨e, rfl⟩
    | udt u => simp [hh, hu] at hm
  obtain ⟨e, he⟩ := he
  obtain ⟨l, hl, _⟩ := Option.map_eq_some_iff.mp (helement e he)
  simp [hl]

/-- The types in sight are active. -/
theorem active (h : Fit inner s) {id : String} (hk : Known s.names s.file id) :
    s.memory.Active id := by
  obtain ⟨x, hx, hu⟩ := hk
  obtain ⟨l, hc, _⟩ := h.kept
  obtain ⟨b, hb, rfl, _, hudt⟩ := hc.binding hx
  rw [(hc.sound b hb).isUdt] at hu
  obtain ⟨u, hu⟩ := Option.isSome_iff_exists.mp hu
  simp [Tracker.Active, hudt u hu]

/-- Declarations keep a session fit if the fields of the new types are of active types. -/
theorem grown (h : Fit inner s) {bs : List Binding} (hg : Grown bs s s')
    (hb : ∀ b ∈ bs, ∀ u, b.udt? = some u → ∀ f ∈ u.fields,
      (ValueType.ofId f.typeId).Based s'.memory.Active) : Fit inner s' where
  kept := hg.leads.kept h.kept
  closed := by
    have hudts : s'.memory.udts = bs.filterMap (·.udt?) ++ s.memory.udts := by
      rw [hg.memory]
      rfl
    have hkept : ∀ id, s.memory.Active id → s'.memory.Active id := fun id hid => by
      rw [Tracker.active_iff] at hid ⊢
      rw [hudts, List.map_append]
      exact List.mem_append_right _ hid
    intro u hu f hf
    rw [hudts] at hu
    rcases List.mem_append.mp hu with hu | hu
    · obtain ⟨b, hbm, hbu⟩ := List.mem_filterMap.mp hu
      exact hb b hbm u hbu f hf
    · exact (h.closed u hu f hf).mono hkept
  inner := hg.isSome_body.trans h.inner

theorem noted (h : Fit inner s) (hg : Grown [] s s') : Fit inner s' :=
  h.grown hg fun b hb => by cases hb

theorem resolves (h : Fit inner s) {a : Annotation} {t : ValueType}
    (hr : Resolves (Known s.names s.file) a t) : t.Based s.memory.Active :=
  hr.based.mono fun _ => h.active

end Fit

theorem sizeOf_spares (hc : s.memory.Closed) {t : ValueType} (ht : t.Based s.memory.Active)
    (p : Position) : Spares (sizeOf t p) s fun _ s' => s' = s := by
  refine (sizeOf_ends t p).mono (fun _ _ h => h.1) ?_
  rintro f s' ⟨_, e, he, rfl⟩
  have hregular := ValueType.size_regular hc ht he
  cases e with
  | recursive id => rfl
  | tooLarge id => rfl
  | unknownType id => cases hregular
  | undefined => cases hregular

/-- From a fit session the step ends in a fit session or fails through a fault of the program. -/
def Safe (inner : Bool) (x : Check α) : Prop :=
  ∀ s, Fit inner s → Spares x s fun _ s' => Fit inner s'

namespace Safe

variable {x : Check α} {f : α → Check β}

theorem pure (a : α) : Safe inner (Pure.pure a) := fun _ h => Ends.pure h

theorem fail {p : Position} {e : SemanticError} (he : e.isInternal = false) :
    Safe inner (Check.fail p e : Check α) := fun _ _ => Spares.fail he

theorem bind (hx : Safe inner x) (hf : ∀ a, Safe inner (f a)) : Safe inner (x >>= f) :=
  fun s hs => (hx s hs).bind fun a s' hs' => hf a s' hs'

theorem of_notes (hn : Notes x) (h : ∀ s, Fit inner s → Spares x s fun _ _ => True) :
    Safe inner x := fun s hs =>
  ((h s hs).with_ends (hn s)).mono fun _ _ hd => hs.noted hd.2.toGrown

theorem ofExcept {y : Except SemanticFault α} (h : ∀ f, y = .error f → Harmless f) :
    Safe inner (ofExcept y) :=
  .of_notes (notes_ofExcept y) fun _ _ => (ofExcept_spares h).mono fun _ _ _ => trivial

theorem nameOf {t : Token} (h : t.Names) : Safe inner (Check.ofExcept (nameOf t)) :=
  .of_notes (notes_ofExcept _) fun _ _ => (nameOf_spares h).mono fun _ _ _ => trivial

theorem get : Safe inner (MonadState.get : Check Session) := fun _ h => Ends.get h

theorem forM {γ : Type} {g : γ → Check PUnit} {cs : List γ} (hg : ∀ c ∈ cs, Safe inner (g c)) :
    Safe inner (cs.forM g) := by
  induction cs with
  | nil => exact .pure ()
  | cons c cs ih =>
    rw [List.forall_mem_cons] at hg
    exact hg.1.bind fun _ => ih hg.2

end Safe

/-! ### Expressions -/

theorem safe_record (id : Nat) (t : ValueType) : Safe inner (record id t) := by
  refine .of_notes (notes_record id t) fun s _ => ?_
  refine (intern?_ends t).seq (fun _ _ h => h.elim) ?_
  rintro (_ | h) s' _
  · exact Ends.bind (Ends.pure (Ends.pure trivial))
  · exact Ends.bind (Ends.modify (Ends.pure trivial))

theorem safe_requireValue (e : Expr) (t : ValueType) : Safe inner (requireValue e t) := by
  unfold requireValue
  split
  · exact .fail rfl
  · exact .pure t

theorem safe_lookup? (id : String) : Safe inner (lookup? id) :=
  .of_notes (notes_lookup? id) fun _ _ =>
    (lookup?_ends id).mono (fun _ _ _ => trivial) fun _ _ h => h.elim

theorem safe_nameType {token : Token} (h : token.Names) : Safe inner (nameType token) := by
  refine .of_notes (notes_nameType token) fun s hs => (nameOf_spares h).bind ?_
  rintro id s ⟨rfl, _⟩
  refine (lookup?_ends id).seq (fun _ _ h => h.elim) ?_
  rintro o s ⟨rfl, ho⟩
  split
  · exact Spares.fail rfl
  · next x =>
    split
    · next hv =>
      have hu : x.isUdt = false := by
        cases hk : x.kind <;> simp_all [Symbol.isUdt, Symbol.isValue, Symbol.valueType?]
      have hfound := hs.found ho.symm hu
      refine Ends.bind (Ends.get ?_)
      dsimp only
      rw [if_pos hfound]
      exact Ends.pure trivial
    · exact Spares.fail rfl

theorem safe_fieldType (left : ValueType) {op : Token} {right : Expr} (hr : right.Sound)
    (hi : ∃ id t, right = .ident id t) : Safe inner (fieldType left op right) := by
  obtain ⟨id, t, rfl⟩ := hi
  refine (Safe.nameOf (t := t) hr).bind fun field => Safe.get.bind fun s => ?_
  dsimp only
  split
  · split
    · exact .pure _
    · exact .fail rfl
  · exact .fail rfl

/-- The function that a call names has its element. -/
theorem parametersOf_spares (hs : Fit inner s) (callee : Token) (id : String) :
    Spares (parametersOf callee id) s fun _ s' => s' = s ∧ (s.memory.find? id).isSome := by
  refine (lookup?_ends id).seq (fun _ _ h => h.elim) ?_
  rintro o s ⟨rfl, ho⟩
  split
  · exact Spares.fail rfl
  · next x =>
    split
    · next params returns hk =>
      have hu : x.isUdt = false := by simp [Symbol.isUdt, hk]
      exact Ends.pure ⟨rfl, hs.found ho.symm hu⟩
    · exact Spares.fail rfl

theorem callType_spares {id : String} (h : (s.memory.find? id).isSome) (callee : Token) :
    Spares (callType callee id) s fun _ s' => s' = s := by
  refine Ends.bind (Ends.get ?_)
  dsimp only
  rw [if_pos h]
  exact Ends.pure rfl

theorem ofLiteral_harmless {t : Token} (h : t.Literal) {f : SemanticFault}
    (hf : ValueType.ofLiteral t = .error f) : Harmless f := by
  rcases h with ⟨v, hv⟩ | ⟨text, ht⟩
  · simp [ValueType.ofLiteral, hv] at hf
  · simp [ValueType.ofLiteral, ht] at hf

theorem ofBinary_harmless {op : Token} {l r : ValueType} {f : SemanticFault}
    (h : ValueType.ofBinary op l r = .error f) : Harmless f := by
  unfold ValueType.ofBinary at h
  split at h
  · cases h
  · cases h
    rfl

theorem ofUnary_harmless {op : Token} {t : ValueType} {f : SemanticFault}
    (h : ValueType.ofUnary op t = .error f) : Harmless f := by
  unfold ValueType.ofUnary at h
  split at h
  · cases h
  · split at h
    · cases h
    · cases h
      rfl

theorem ofIndex_harmless {bracket : Token} {t i : ValueType} {f : SemanticFault}
    (h : ValueType.ofIndex bracket t i = .error f) : Harmless f := by
  unfold ValueType.ofIndex at h
  split at h
  · cases h
  · split at h
    · cases h
      rfl
    · split at h
      · cases h
      · cases h
        rfl

mutual

/-- The check of a sound expression breaks no promise. -/
theorem safe_expr : ∀ e : Expr, e.Sound → Safe inner (expr e)
  | .literal id token, h => by
    rw [expr]
    refine (Safe.ofExcept fun f hf => ofLiteral_harmless ?_ hf).bind fun t => safe_record id t
    simpa [Expr.Sound] using h
  | .ident id token, h => by
    rw [expr]
    refine (safe_nameType ?_).bind fun t => safe_record id t
    simpa [Expr.Sound] using h
  | .binary id left op right, h => by
    rw [Expr.Sound] at h
    rw [expr]
    refine (safe_expr left h.1).bind fun t => (safe_requireValue left t).bind fun l => ?_
    split
    · next ha => exact (safe_fieldType l h.2.1 (h.2.2 ha)).bind fun t => safe_record id t
    · refine (safe_expr right h.2.1).bind fun t => (safe_requireValue right t).bind fun r => ?_
      exact (Safe.ofExcept fun _ => ofBinary_harmless).bind fun t => safe_record id t
  | .unary id op operand, h => by
    rw [Expr.Sound] at h
    rw [expr]
    refine (safe_expr operand h).bind fun t => (safe_requireValue operand t).bind fun t => ?_
    exact (Safe.ofExcept fun _ => ofUnary_harmless).bind fun t => safe_record id t
  | .call id callee args, h => by
    rw [Expr.Sound] at h
    rw [expr]
    intro s hs
    refine (nameOf_spares h.1).bind ?_
    rintro name s ⟨rfl, _⟩
    refine (parametersOf_spares hs callee name).bind ?_
    rintro params s ⟨rfl, hfound⟩
    split
    · refine ((safe_arguments name 1 args params h.2 s hs).with_ends
        (notes_arguments name 1 args params s)).bind ?_
      rintro _ s₁ ⟨hs₁, hg⟩
      rw [← hg.memory_eq] at hfound
      refine (callType_spares hfound callee).bind ?_
      rintro t s₁ rfl
      exact safe_record id t s₁ hs₁
    · exact Spares.fail rfl
  | .index id target bracket subscript, h => by
    rw [Expr.Sound] at h
    rw [expr]
    refine (safe_expr target h.1).bind fun t => (safe_requireValue target t).bind fun t => ?_
    refine (safe_expr subscript h.2).bind fun i => (safe_requireValue subscript i).bind fun i => ?_
    exact (Safe.ofExcept fun _ => ofIndex_harmless).bind fun t => safe_record id t

theorem safe_arguments (callee : String) : ∀ (number : Nat) (args : List Expr)
    (params : List TypedName), Expr.SoundAll args → Safe inner (arguments callee number args params)
  | number, arg :: args, param :: params, h => by
    rw [Expr.SoundAll] at h
    rw [arguments]
    refine (safe_expr arg h.1).bind fun t => (safe_requireValue arg t).bind fun found => ?_
    refine Safe.get.bind fun s => ?_
    dsimp only
    split
    · exact safe_arguments callee (number + 1) args params h.2
    · exact .fail rfl
  | _, [], _, _ => by
    rw [arguments]
    · exact .pure _
    · intro arg args param params h
      cases h
  | _, _ :: _, [], _ => by
    rw [arguments]
    · exact .pure _
    · intro arg args param params _ h
      cases h

end

theorem safe_value {e : Expr} (h : e.Sound) : Safe inner (value e) :=
  (safe_expr e h).bind fun t => safe_requireValue e t

end Check

end StoragePlan
