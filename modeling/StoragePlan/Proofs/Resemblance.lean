import StoragePlan.Proofs.BareTrees
import StoragePlan.Proofs.Decoding
import StoragePlan.Proofs.Echoes
import StoragePlan.Proofs.Recording
import StoragePlan.Proofs.Requirements

/-!
Sessions that resemble each other inside of a function. The one may have other files before it, other
places, other handles and its globals in another order; but every name means a symbol of the same sort
with the same type in storage, the stack is the same, and so are the shapes of the active types. What is
right in the one is then right in the other, with the same types. Only success is carried over: what is
wrong may be reported in another way.
-/

namespace StoragePlan

/-! ### Success carried over -/

section KeepsUp

variable {ε σ α β : Type}

/-- If `x` succeeds from `s`, then `y` succeeds from `t`, and `done` relates how they end. -/
def KeepsUp (x y : EStateM ε σ α) (s t : σ) (done : α → α → σ → σ → Prop) : Prop :=
  ∀ a s', x s = .ok a s' → ∃ b t', y t = .ok b t' ∧ done a b s' t'

namespace KeepsUp

variable {x y : EStateM ε σ α} {f g : α → EStateM ε σ β} {s t : σ} {done done' : α → α → σ → σ → Prop}

theorem pure {a b : α} (h : done a b s t) :
    KeepsUp (Pure.pure a : EStateM ε σ α) (Pure.pure b) s t done := by
  rintro _ _ ⟨⟩
  exact ⟨b, t, rfl, h⟩

theorem throw (e : ε) : KeepsUp (MonadExcept.throw e : EStateM ε σ α) y s t done := by
  rintro _ _ ⟨⟩

theorem seq {mid : α → α → σ → σ → Prop} {done : β → β → σ → σ → Prop} (h : KeepsUp x y s t mid)
    (hf : ∀ a b s' t', mid a b s' t' → KeepsUp (f a) (g b) s' t' done) :
    KeepsUp (x >>= f) (y >>= g) s t done := by
  intro c s'' hrun
  obtain ⟨a, s', hx, hf'⟩ := bind_eq_ok hrun
  obtain ⟨b, t', hy, hmid⟩ := h a s' hx
  obtain ⟨d, t'', hg, hdone⟩ := hf a b s' t' hmid c s'' hf'
  exact ⟨d, t'', (bind_of_ok hy).trans hg, hdone⟩

theorem mono (h : KeepsUp x y s t done) (hd : ∀ a b s' t', done a b s' t' → done' a b s' t') :
    KeepsUp x y s t done' := by
  intro a s' hx
  obtain ⟨b, t', hy, hdone⟩ := h a s' hx
  exact ⟨b, t', hy, hd a b s' t' hdone⟩

/-- A step that does not fail needs no other to succeed first. -/
theorem of_total {P Q : α → σ → Prop} {failed : ε → σ → Prop} (hx : Ends x s P failed)
    (hy : Ends y t Q fun _ _ => False) (h : ∀ a b s' t', P a s' → Q b t' → done a b s' t') :
    KeepsUp x y s t done := by
  intro a s' hrun
  cases hrun' : y t with
  | ok b t' => exact ⟨b, t', rfl, h a b s' t' (hx.ok hrun) (hy.ok hrun')⟩
  | error e t' => exact (hy.error hrun').elim

theorem and_ends {P : α → σ → Prop} {failed : ε → σ → Prop} (h : KeepsUp x y s t done)
    (hx : Ends x s P failed) : KeepsUp x y s t fun a b s' t' => done a b s' t' ∧ P a s' := by
  intro a s' hrun
  obtain ⟨b, t', hy, hdone⟩ := h a s' hrun
  exact ⟨b, t', hy, hdone, hx.ok hrun⟩

theorem get {k l : σ → EStateM ε σ β} {done : β → β → σ → σ → Prop}
    (h : KeepsUp (k s) (l t) s t done) :
    KeepsUp (MonadState.get >>= k) (MonadState.get >>= l) s t done := h

theorem modify_seq {k l : σ → σ} {f g : PUnit → EStateM ε σ β} {done : β → β → σ → σ → Prop}
    (h : KeepsUp (f ⟨⟩) (g ⟨⟩) (k s) (l t) done) :
    KeepsUp ((modify k : EStateM ε σ PUnit) >>= f) ((modify l : EStateM ε σ PUnit) >>= g) s t done := h

theorem modify {k l : σ → σ} {done : PUnit → PUnit → σ → σ → Prop} (h : done ⟨⟩ ⟨⟩ (k s) (l t)) :
    KeepsUp (modify k : EStateM ε σ PUnit) (modify l) s t done := by
  rintro _ _ ⟨⟩
  exact ⟨⟨⟩, l t, rfl, h⟩

end KeepsUp

end KeepsUp

/-! ### Symbols -/

/-- The arguments have the same types, read in the tables `types` and `types'`. -/
def SameTypes (types types' : TypeTable) (args args' : List TypedName) : Prop :=
  args.map (types.valueType ·.type) = args'.map (types'.valueType ·.type) ∧
    (∀ a ∈ args, a.type < types.types.length) ∧ ∀ a ∈ args', a.type < types'.types.length

/-- The symbols are of one sort; functions have arguments of the same types. -/
def Symbol.Like (types types' : TypeTable) (x y : Symbol) : Prop :=
  match x.kind, y.kind with
  | .var _, .var _ => True
  | .const _, .const _ => True
  | .udt _, .udt _ => True
  | .function args _, .function args' _ => SameTypes types types' args args'
  | _, _ => False

namespace Symbol.Like

variable {types types' : TypeTable} {x y : Symbol} (h : x.Like types types' y)

include h

theorem isUdt : y.isUdt = x.isUdt := by
  obtain ⟨_, kind, _, _⟩ := x
  obtain ⟨_, kind', _, _⟩ := y
  cases kind <;> cases kind' <;> simp_all [Like, Symbol.isUdt]

theorem isValue : y.isValue = x.isValue := by
  obtain ⟨_, kind, _, _⟩ := x
  obtain ⟨_, kind', _, _⟩ := y
  cases kind <;> cases kind' <;> simp_all [Like, Symbol.isValue, Symbol.valueType?]

theorem isConstant : Check.isConstant (some y) = Check.isConstant (some x) := by
  obtain ⟨_, kind, _, _⟩ := x
  obtain ⟨_, kind', _, _⟩ := y
  cases kind <;> cases kind' <;> simp_all [Like, Check.isConstant]

theorem function {args : List TypedName} {returns : Option Handle}
    (hk : x.kind = .function args returns) :
    ∃ args' returns', y.kind = .function args' returns' ∧ SameTypes types types' args args' := by
  obtain ⟨_, kind', _, _⟩ := y
  unfold Like at h
  rw [hk] at h
  cases kind' with
  | function args' returns' => exact ⟨args', returns', rfl, h⟩
  | _ => exact h.elim

omit h in
/-- Handles of values and fields do not matter. -/
theorem of_outline {x₁ y₁ : Symbol} (h : x.Like types types' y) (hx : x₁.outline = x.outline)
    (hy : y₁.outline = y.outline) : x₁.Like types types' y₁ := by
  unfold Like at h ⊢
  rcases Symbol.kind_congr hx with ⟨_, _, hk, hk₁⟩ | ⟨_, _, hk, hk₁⟩ | ⟨_, _, hk, hk₁⟩ |
      ⟨_, _, hk, hk₁⟩ <;>
    rcases Symbol.kind_congr hy with ⟨_, _, hl, hl₁⟩ | ⟨_, _, hl, hl₁⟩ | ⟨_, _, hl, hl₁⟩ |
      ⟨_, _, hl, hl₁⟩ <;>
    simp_all

end Symbol.Like

/-! ### Sizes -/

namespace ValueType

variable {m m' : Tracker}

theorem udtSize_congr (h : ∀ id, m'.findUdt? id = m.findUdt? id) (n : Nat) (visiting : List String)
    (id : String) : udtSize m' n visiting id = udtSize m n visiting id := by
  induction n generalizing visiting id with
  | zero => rfl
  | succ n ih =>
    have hsize : udtSize m' n (id :: visiting) = udtSize m n (id :: visiting) :=
      funext fun other => ih _ other
    unfold udtSize
    rw [h, hsize]

/-- The size of a type depends on the shapes of the active types, not on their order. -/
theorem size_congr (h : ∀ id, m'.findUdt? id = m.findUdt? id) (hl : m'.udts.length = m.udts.length)
    (t : ValueType) : t.size m' = t.size m := by
  have hsize : udtSize m' (m.udts.length + 1) [] = udtSize m (m.udts.length + 1) [] :=
    funext fun id => udtSize_congr h _ _ id
  rw [size, size, hl, hsize]

end ValueType

/-! ### Sessions -/

namespace Check

/-- The sessions look the same: a name means symbols of one sort with one element, the stack is the
same, and so are the shapes of the active types. `base` and `base'` are tables of types from which theirs
have grown. -/
structure Akin (base base' : TypeTable) (s t : Session) : Prop where
  stack : t.memory.stack = s.memory.stack
  shapes : ∀ id, t.memory.findUdt? id = s.memory.findUdt? id
  count : t.memory.udts.length = s.memory.udts.length
  absent : ∀ id, s.names.lookup? s.file id = none → t.names.lookup? t.file id = none
  present : ∀ id x, s.names.lookup? s.file id = some x → ∃ y, t.names.lookup? t.file id = some y ∧
    x.Like base base' y ∧
    (x.isUdt = false → (t.memory.find? id).map (·.element) = (s.memory.find? id).map (·.element))
  ordered : base.Ordered
  ordered' : base'.Ordered
  types : base.Grown s.names.types
  types' : base'.Grown t.names.types

/-- The sessions look the same from inside of a function, in an open scope. -/
structure Resembles (base base' : TypeTable) (s t : Session) : Prop extends Akin base base' s t where
  inside : s.body.isSome = true
  returns : t.body.map (·.returns) = s.body.map (·.returns)
  depth : 0 < s.names.depth s.file
  depth' : 0 < t.names.depth t.file
  current : ∀ id, s.names.current? s.file id = none → t.names.current? t.file id = none

variable {base base' : TypeTable} {s s' t t' : Session} {α β : Type}

/-- If `x` succeeds from a session, then `y` succeeds from all that resemble it, with answers that `R`
relates, and the sessions resemble each other again. -/
def Carries (base base' : TypeTable) (x y : Check α) (R : α → α → Prop) : Prop :=
  ∀ s t, Resembles base base' s t →
    KeepsUp x y s t fun a b s' t' => R a b ∧ Resembles base base' s' t'

namespace Resembles

theorem inside' (h : Resembles base base' s t) : t.body.isSome = true := by
  have hb := congrArg Option.isSome h.returns
  rw [Option.isSome_map, Option.isSome_map, h.inside] at hb
  exact hb

/-- Steps that declare nothing keep the resemblance. -/
theorem grown (h : Resembles base base' s t) (hs : Grown [] s s') (ht : Grown [] t t') :
    Resembles base base' s' t' := by
  have hreturns : ∀ {r r' : Session}, Grown [] r r' →
      r'.body.map (·.returns) = r.body.map (·.returns) := by
    intro r r' hg
    obtain ⟨ps, hps⟩ := hg.body
    rw [hps, Option.map_map]
    rfl
  have hcurrent : ∀ {r r' : Session}, Grown [] r r' → ∀ id,
      r'.names.current? r'.file id = r.names.current? r.file id := by
    intro r r' hg id
    rw [hg.file, Registry.current?, Registry.table?_congr hg.tables_eq, Registry.current?]
  constructor
  case toAkin =>
    constructor
    case stack => rw [hs.memory_eq, ht.memory_eq, h.stack]
    case shapes =>
      intro id
      rw [hs.memory_eq, ht.memory_eq, h.shapes]
    case count => rw [hs.memory_eq, ht.memory_eq, h.count]
    case absent =>
      intro id
      rw [hs.lookup?_eq, ht.lookup?_eq]
      exact h.absent id
    case present =>
      intro id x
      rw [hs.lookup?_eq, ht.lookup?_eq, hs.memory_eq, ht.memory_eq]
      exact h.present id x
    case ordered => exact h.ordered
    case ordered' => exact h.ordered'
    case types => exact h.types.trans hs.types
    case types' => exact h.types'.trans ht.types
  case inside => exact hs.isSome_body.trans h.inside
  case returns => rw [hreturns hs, hreturns ht, h.returns]
  case depth =>
    rw [hs.file, hs.depth_names]
    exact h.depth
  case depth' =>
    rw [ht.file, ht.depth_names]
    exact h.depth'
  case current =>
    intro id
    rw [hcurrent hs, hcurrent ht]
    exact h.current id

end Resembles

namespace Akin

theorem known (h : Akin base base' s t) {id : String} (hk : Known s.names s.file id) :
    Known t.names t.file id := by
  obtain ⟨x, hx, hu⟩ := hk
  obtain ⟨y, hy, hlike, _⟩ := h.present id x hx
  exact ⟨y, hy, hlike.isUdt.trans hu⟩

theorem size (h : Akin base base' s t) (ty : ValueType) : ty.size t.memory = ty.size s.memory :=
  ValueType.size_congr h.shapes h.count ty

theorem content? (h : Akin base base' s t) {id : String} {x : Symbol}
    (hx : s.names.lookup? s.file id = some x) (hu : x.isUdt = false) :
    t.memory.content? id = s.memory.content? id := by
  obtain ⟨_, _, _, he⟩ := h.present id x hx
  have hc := congrArg (Option.map Element.content) (he hu)
  rwa [Option.map_map, Option.map_map] at hc

theorem isSome_find? (h : Akin base base' s t) {id : String} {x : Symbol}
    (hx : s.names.lookup? s.file id = some x) (hu : x.isUdt = false) :
    (t.memory.find? id).isSome = (s.memory.find? id).isSome := by
  obtain ⟨_, _, _, he⟩ := h.present id x hx
  have hc := congrArg Option.isSome (he hu)
  rwa [Option.isSome_map, Option.isSome_map] at hc

end Akin

namespace Carries

variable {x y : Check α} {f g : α → Check β} {R : α → α → Prop} {Q : β → β → Prop}

theorem pure {a b : α} (h : R a b) : Carries base base' (Pure.pure a) (Pure.pure b) R :=
  fun _ _ hr => KeepsUp.pure ⟨h, hr⟩

theorem fail (p : Position) (e : SemanticError) (y : Check α) :
    Carries base base' (Check.fail p e) y R := fun _ _ _ => KeepsUp.throw _

theorem bind (hx : Carries base base' x y R) (hf : ∀ a b, R a b → Carries base base' (f a) (g b) Q) :
    Carries base base' (x >>= f) (y >>= g) Q :=
  fun s t hr => (hx s t hr).seq fun a b s' t' h => hf a b h.1 s' t' h.2

/-- Steps that declare nothing, and where one success leads to the other. -/
theorem of_notes (hx : Notes x) (hy : Notes y)
    (h : ∀ s t, Resembles base base' s t → KeepsUp x y s t fun a b _ _ => R a b) :
    Carries base base' x y R := by
  intro s t hr a s' hrun
  obtain ⟨b, t', hrun', hR⟩ := h s t hr a s' hrun
  exact ⟨b, t', hrun', hR, hr.grown ((hx s).ok hrun).toGrown ((hy t).ok hrun').toGrown⟩

/-- One of the two branches, chosen in both by the same test. -/
theorem branch {c : Prop} [Decidable c] {x' y' : Check α} (h : Carries base base' x y R)
    (h' : Carries base base' x' y' R) :
    Carries base base' (if c then x else x') (if c then y else y') R := by
  split
  · exact h
  · exact h'

theorem forM {γ δ : Type} {k l : γ → Check PUnit} {g : γ → δ} {cs ds : List γ}
    (h : ds.map g = cs.map g)
    (hk : ∀ c d, g d = g c → Carries base base' (k c) (l d) fun _ _ => True) :
    Carries base base' (cs.forM k) (ds.forM l) fun _ _ => True := by
  induction cs generalizing ds with
  | nil =>
    rw [List.map_nil, List.map_eq_nil_iff] at h
    rw [h]
    exact pure trivial
  | cons c cs ih =>
    obtain ⟨d, ds, rfl, hd, hds⟩ := List.map_eq_cons_iff.mp h
    exact (hk c d hd).bind fun _ _ _ => ih hds

theorem forM_option {γ δ : Type} {k l : γ → Check PUnit} {g : γ → δ} {o o' : Option γ}
    (h : o'.map g = o.map g)
    (hk : ∀ c d, g d = g c → Carries base base' (k c) (l d) fun _ _ => True) :
    Carries base base' (o.forM k) (o'.forM l) fun _ _ => True := by
  cases o with
  | none =>
    rw [Option.map_none, Option.map_eq_none_iff] at h
    rw [h]
    exact pure trivial
  | some c =>
    obtain ⟨d, rfl, hd⟩ := Option.map_eq_some_iff.mp h
    exact hk c d hd

end Carries

/-! ### Small steps -/

theorem carries_ofExcept {x y : Except SemanticFault α} {R : α → α → Prop}
    (h : ∀ a, x = .ok a → ∃ b, y = .ok b ∧ R a b) :
    Carries base base' (ofExcept x) (ofExcept y) R := by
  refine .of_notes (notes_ofExcept x) (notes_ofExcept y) fun s t _ a s' hrun => ?_
  obtain ⟨b, rfl, hR⟩ := h a ((ofExcept_ends x).ok hrun).2
  exact ⟨b, t, rfl, hR⟩

/-- What is right of a token is right of it at another place. -/
theorem carries_same {x y : Except SemanticFault α} (h : ∀ a, x = .ok a → y = .ok a) :
    Carries base base' (ofExcept x) (ofExcept y) Eq :=
  carries_ofExcept fun a ha => ⟨a, h a ha, rfl⟩

theorem carries_name {token token' : Token} (h : token'.bare = token.bare) :
    Carries base base' (ofExcept (nameOf token)) (ofExcept (nameOf token')) Eq :=
  carries_same fun _ => Token.nameOf_congr h

theorem carries_record (id id' : Nat) (ty : ValueType) :
    Carries base base' (record id ty) (record id' ty) Eq :=
  .of_notes (notes_record id ty) (notes_record id' ty) fun _ _ _ =>
    .of_total (record_total id ty) (record_total id' ty) fun _ _ _ _ ha hb => ha.trans hb.symm

theorem carries_requireValue (e e' : Expr) (ty : ValueType) :
    Carries base base' (requireValue e ty) (requireValue e' ty) Eq :=
  .branch (.fail _ _ _) (.pure rfl)

/-! ### Expressions -/

/-- What a name means in the two sessions. -/
theorem keepsUp_lookup? (s t : Session) (id : String) :
    KeepsUp (lookup? id) (lookup? id) s t fun a b s' t' =>
      s' = s ∧ t' = t ∧ a = s.names.lookup? s.file id ∧ b = t.names.lookup? t.file id :=
  .of_total (lookup?_ends id) (lookup?_ends id) fun _ _ _ _ h h' => ⟨h.1, h'.1, h.2, h'.2⟩

theorem keepsUp_nameType (h : Resembles base base' s t) {token token' : Token}
    (hb : token'.bare = token.bare) :
    KeepsUp (nameType token) (nameType token') s t fun a b _ _ => a = b := by
  refine (carries_name hb s t h).seq fun id _ s t ⟨rfl, h⟩ => ?_
  refine (keepsUp_lookup? s t id).seq ?_
  rintro _ _ s t ⟨rfl, rfl, rfl, rfl⟩
  cases hx : s.names.lookup? s.file id with
  | none => exact KeepsUp.throw _
  | some x =>
    obtain ⟨y, hy, hlike, _⟩ := h.present id x hx
    rw [hy]
    dsimp only
    split
    · next hv =>
      have hu : x.isUdt = false := by
        obtain ⟨_, kind, _, _⟩ := x
        cases kind <;> simp_all [Symbol.isUdt, Symbol.isValue, Symbol.valueType?]
      rw [if_pos (hlike.isValue.trans hv)]
      refine KeepsUp.get ?_
      rw [h.isSome_find? hx hu, ValueType.ofName, ValueType.ofName, h.content? hx hu]
      split
      · exact KeepsUp.pure rfl
      · exact KeepsUp.throw _
    · exact KeepsUp.throw _

theorem carries_nameType {token token' : Token} (h : token'.bare = token.bare) :
    Carries base base' (nameType token) (nameType token') Eq :=
  .of_notes (notes_nameType token) (notes_nameType token') fun _ _ hr => keepsUp_nameType hr h

theorem keepsUp_fieldType (h : Resembles base base' s t) (left : ValueType) {op op' : Token}
    {right right' : Expr} (hb : right'.bare = right.bare) :
    KeepsUp (fieldType left op right) (fieldType left op' right') s t fun a b _ _ => a = b := by
  have hfield : ∀ id, fieldOf op right = .ok id → fieldOf op' right' = .ok id := by
    intro id hid
    cases right with
    | ident n token =>
      obtain ⟨n', token', rfl, ht⟩ := Expr.of_bare_ident hb
      exact Token.nameOf_congr ht hid
    | _ => cases hid
  refine (carries_same hfield s t h).seq fun field _ s t ⟨rfl, h⟩ => ?_
  refine KeepsUp.get ?_
  dsimp only
  split
  · rw [Tracker.findField?, Tracker.findField?, h.shapes, ValueType.ofField, ValueType.ofField,
      Tracker.findField?, Tracker.findField?, h.shapes]
    split
    · exact KeepsUp.pure rfl
    · exact KeepsUp.throw _
  · exact KeepsUp.throw _

theorem carries_fieldType (left : ValueType) (op op' : Token) {right right' : Expr}
    (h : right'.bare = right.bare) :
    Carries base base' (fieldType left op right) (fieldType left op' right') Eq :=
  .of_notes (notes_fieldType left op right) (notes_fieldType left op' right') fun _ _ hr =>
    keepsUp_fieldType hr left h

/-- The name means a function, a variable or a constant. -/
def Stands (s : Session) (id : String) : Prop :=
  ∃ x, s.names.lookup? s.file id = some x ∧ x.isUdt = false

theorem Stands.noted {id : String} (h : Stands s id) (hs : Noted s s') : Stands s' id := by
  obtain ⟨x, hx, hu⟩ := h
  exact ⟨x, (hs.lookup?_eq id).trans hx, hu⟩

theorem keepsUp_parametersOf (h : Resembles base base' s t) (callee callee' : Token) (id : String) :
    KeepsUp (parametersOf callee id) (parametersOf callee' id) s t fun a b s' t' =>
      (SameTypes base base' a b ∧ Stands s' id) ∧ Resembles base base' s' t' := by
  refine (keepsUp_lookup? s t id).seq ?_
  rintro _ _ s t ⟨rfl, rfl, rfl, rfl⟩
  cases hx : s.names.lookup? s.file id with
  | none => exact KeepsUp.throw _
  | some x =>
    obtain ⟨y, hy, hlike, _⟩ := h.present id x hx
    rw [hy]
    dsimp only
    split
    · next params returns hk =>
      obtain ⟨params', returns', hk', hsame⟩ := hlike.function hk
      rw [hk']
      exact KeepsUp.pure ⟨⟨hsame, x, hx, by simp [Symbol.isUdt, hk]⟩, h⟩
    · exact KeepsUp.throw _

theorem keepsUp_callType (h : Resembles base base' s t) {id : String} (hid : Stands s id)
    (callee callee' : Token) :
    KeepsUp (callType callee id) (callType callee' id) s t fun a b s' t' =>
      a = b ∧ Resembles base base' s' t' := by
  obtain ⟨x, hx, hu⟩ := hid
  refine KeepsUp.get ?_
  dsimp only
  rw [h.isSome_find? hx hu, ValueType.ofCall, ValueType.ofCall, h.content? hx hu]
  split
  · exact KeepsUp.pure ⟨rfl, h⟩
  · exact KeepsUp.throw _

theorem carries_ofLiteral {token token' : Token} (h : token'.bare = token.bare) :
    Carries base base' (ofExcept (ValueType.ofLiteral token)) (ofExcept (ValueType.ofLiteral token'))
      Eq :=
  carries_same fun _ => ValueType.ofLiteral_congr h

theorem carries_ofBinary (op op' : Token) (l r : ValueType) :
    Carries base base' (ofExcept (ValueType.ofBinary op l r)) (ofExcept (ValueType.ofBinary op' l r))
      Eq := by
  refine carries_same fun ty hty => ?_
  unfold ValueType.ofBinary at hty ⊢
  split at hty
  · exact hty
  · cases hty

theorem carries_ofUnary (op op' : Token) (ty : ValueType) :
    Carries base base' (ofExcept (ValueType.ofUnary op ty)) (ofExcept (ValueType.ofUnary op' ty))
      Eq := by
  refine carries_same fun ty' hty => ?_
  unfold ValueType.ofUnary at hty ⊢
  split at hty
  · next hu => rwa [if_pos hu]
  · next hu =>
    rw [if_neg hu]
    split at hty
    · next hi => rwa [if_pos hi]
    · cases hty

theorem carries_ofIndex (bracket bracket' : Token) (t i : ValueType) :
    Carries base base' (ofExcept (ValueType.ofIndex bracket t i))
      (ofExcept (ValueType.ofIndex bracket' t i)) Eq := by
  refine carries_same fun ty hty => ?_
  unfold ValueType.ofIndex at hty ⊢
  split at hty
  · next hu => rwa [if_pos hu]
  · next hu =>
    rw [if_neg hu]
    cases he : t.element? with
    | none => simp [he] at hty
    | some element =>
      simp only [he] at hty ⊢
      split at hty
      · next hi => rwa [if_pos hi]
      · cases hty

theorem Carries.expr {e e' : Expr} (h : Carries base base' (typed e) (typed e') Eq) :
    Carries base base' (expr e) (expr e') Eq := by
  rw [expr_eq, expr_eq]
  refine h.bind ?_
  rintro ty _ rfl
  exact carries_record e.id e'.id ty

theorem Carries.value {e e' : Expr} (h : Carries base base' (Check.expr e) (Check.expr e') Eq) :
    Carries base base' (value e) (value e') Eq := by
  refine h.bind ?_
  rintro ty _ rfl
  exact carries_requireValue e e' ty

mutual

theorem carries_typed : ∀ e e' : Expr, e'.bare = e.bare → Carries base base' (typed e) (typed e') Eq
  | .literal id token, e', h => by
    obtain ⟨id', token', rfl, ht⟩ := Expr.of_bare_literal h
    exact carries_ofLiteral ht
  | .ident id token, e', h => by
    obtain ⟨id', token', rfl, ht⟩ := Expr.of_bare_ident h
    exact carries_nameType ht
  | .unary id op operand, e', h => by
    obtain ⟨id', op', operand', rfl, _, ho⟩ := Expr.of_bare_unary h
    refine (carries_typed operand operand' ho).expr.value.bind ?_
    rintro ty _ rfl
    exact carries_ofUnary op op' ty
  | .binary id left op right, e', h => by
    obtain ⟨id', left', op', right', rfl, hl, hop, hr⟩ := Expr.of_bare_binary h
    refine (carries_typed left left' hl).expr.value.bind ?_
    rintro l _ rfl
    rw [Expr.isAccess_congr hop]
    refine .branch (carries_fieldType l op op' hr) ?_
    refine (carries_typed right right' hr).expr.value.bind ?_
    rintro r _ rfl
    exact carries_ofBinary op op' l r
  | .call id callee args, e', h => by
    obtain ⟨id', callee', args', rfl, hc, ha⟩ := Expr.of_bare_call h
    refine (carries_name hc).bind ?_
    rintro name _ rfl
    intro s t hr
    refine (keepsUp_parametersOf hr callee callee' name).seq ?_
    rintro params params' s t ⟨⟨hsame, hstands⟩, hr⟩
    have hlength : (params'.length = args'.length) ↔ (params.length = args.length) := by
      have hp := congrArg List.length hsame.1
      rw [List.length_map, List.length_map] at hp
      rw [← hp, Expr.length_congr ha]
    simp only [hlength]
    split
    · have hargs := carries_arguments name 1 args args' params params' ha hsame s t hr
      refine (hargs.and_ends (notes_arguments name 1 args params s)).seq ?_
      rintro _ _ s t ⟨⟨_, hr⟩, hnoted⟩
      exact keepsUp_callType hr (hstands.noted hnoted) callee callee'
    · exact KeepsUp.throw _
  | .index id target bracket subscript, e', h => by
    obtain ⟨id', target', bracket', subscript', rfl, ht, _, hs⟩ := Expr.of_bare_index h
    refine (carries_typed target target' ht).expr.value.bind ?_
    rintro ty _ rfl
    refine (carries_typed subscript subscript' hs).expr.value.bind ?_
    rintro i _ rfl
    exact carries_ofIndex bracket bracket' ty i

theorem carries_arguments (callee : String) : ∀ (number : Nat) (args args' : List Expr)
    (params params' : List TypedName), Expr.bareAll args' = Expr.bareAll args →
    SameTypes base base' params params' →
    Carries base base' (arguments callee number args params) (arguments callee number args' params')
      fun _ _ => True
  | number, [], args', params, params', h, _ => by
    obtain rfl : args' = [] := by
      cases args' with
      | nil => rfl
      | cons => simp [Expr.bareAll] at h
    simp only [arguments]
    exact .pure trivial
  | number, arg :: args, args', [], params', h, hp => by
    obtain rfl : params' = [] := by simpa using hp.1.symm
    cases args' <;> simp only [arguments] <;> exact .pure trivial
  | number, arg :: args, args', param :: params, params', h, hp => by
    cases args' with
    | nil => simp [Expr.bareAll] at h
    | cons arg' args' =>
      simp only [Expr.bareAll, List.cons.injEq] at h
      obtain ⟨hmap, hlt, hlt'⟩ := hp
      cases params' with
      | nil => simp at hmap
      | cons param' params' =>
        simp only [List.map_cons, List.cons.injEq] at hmap
        rw [List.forall_mem_cons] at hlt hlt'
        rw [arguments_cons, arguments_cons]
        refine (carries_typed arg arg' h.1).expr.value.bind ?_
        rintro found _ rfl
        intro s t hr
        refine KeepsUp.get ?_
        have hexpected : t.names.types.valueType param'.type = s.names.types.valueType param.type := by
          rw [TypeTable.valueType_mono hr.ordered' hr.types'.entries hlt'.1,
            TypeTable.valueType_mono hr.ordered hr.types.entries hlt.1, hmap.1]
        dsimp only
        rw [hexpected]
        split
        · exact carries_arguments callee (number + 1) args args' params params' h.2
            ⟨hmap.2, hlt.2, hlt'.2⟩ s t hr
        · exact KeepsUp.throw _

end

theorem carries_expr {e e' : Expr} (h : e'.bare = e.bare) :
    Carries base base' (expr e) (expr e') Eq := (carries_typed e e' h).expr

theorem carries_value {e e' : Expr} (h : e'.bare = e.bare) :
    Carries base base' (value e) (value e') Eq := (carries_expr h).value

end Check

end StoragePlan
