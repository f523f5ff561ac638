import StoragePlan.Proofs.Echoes
import StoragePlan.Proofs.RecordedTypes

/-!
Two runs side by side. Two sessions are twins if they are alike and both tables of types have grown, each
in its own way, from one table that holds the arguments of all functions. A check of a body asks neither
which handle a type has nor what has been recorded before, so from twins it fails with the same fault or
succeeds both times, and what the two runs record stands for the same types. `Parallels` says this of a
step; its rules follow the shape of a `do` block.
-/

namespace StoragePlan

namespace Check

/-! ### Twins -/

/-- Since `s₀` and `t₀` the two runs have recorded the same types for the same nodes. -/
structure Told (s₀ t₀ s t : Session) : Prop where
  left : s.Legible
  right : t.Legible
  recorded : ∃ added added' : NodeTypes, s.types = added ++ s₀.types ∧ t.types = added' ++ t₀.types ∧
    added'.decoded t.names.types = added.decoded s.names.types ∧
    ∀ n ∈ added.decoded s.names.types, n.2 ≠ .undefined

/-- The sessions are alike, and both tables of types have grown from that of `t₀`. In sound programs, of
which `q` speaks, the same types are recorded. -/
structure Twin (q : Prop) (s₀ t₀ s t : Session) : Prop extends Alike s t where
  ordered : t₀.names.types.Ordered
  left : t₀.names.types.Grown s.names.types
  right : t₀.names.types.Grown t.names.types
  within : s.names.outline.Within t₀.names.types.types.length
  told : q → Told s₀ t₀ s t

variable {q : Prop} {s₀ t₀ s s' t t' : Session}

/-- Both runs record some more entries, which stand for the same types. -/
theorem Told.step (h : Told s₀ t₀ s t) (hs : s'.Legible) (ht : t'.Legible)
    (hgs : s.names.types.Grown s'.names.types) (hgt : t.names.types.Grown t'.names.types)
    {ns : List (Nat × ValueType)} (hn : ∀ n ∈ ns, n.2 ≠ .undefined)
    (hms : ∃ more : NodeTypes, s'.types = more ++ s.types ∧ more.decoded s'.names.types = ns)
    (hmt : ∃ more : NodeTypes, t'.types = more ++ t.types ∧ more.decoded t'.names.types = ns) :
    Told s₀ t₀ s' t' := by
  obtain ⟨added, added', ha, ha', hd, hdef⟩ := h.recorded
  obtain ⟨more, hm, hns⟩ := hms
  obtain ⟨more', hm', hns'⟩ := hmt
  have hkept : added.decoded s'.names.types = added.decoded s.names.types :=
    NodeTypes.decoded_mono h.left.types.ordered hgs hdef
  have hkept' : added'.decoded t'.names.types = added'.decoded t.names.types :=
    NodeTypes.decoded_mono h.right.types.ordered hgt (by rwa [hd])
  refine ⟨hs, ht, more ++ added, more' ++ added', ?_, ?_, ?_, ?_⟩
  · rw [hm, ha, List.append_assoc]
  · rw [hm', ha', List.append_assoc]
  · rw [NodeTypes.decoded_append, NodeTypes.decoded_append, hkept, hkept', hns, hns', hd]
  · rw [NodeTypes.decoded_append, hns, hkept]
    intro n hmem
    exact (List.mem_append.mp hmem).elim (hn n) (hdef n)

/-! ### Steps -/

variable {α β : Type}

/-- A step that only adds entries to the table of types and declares no functions. -/
def Steady (x : Check α) : Prop :=
  ∀ n s, s.names.outline.Within n → Ends x s
    (fun _ s' => s.names.types.Grown s'.names.types ∧ s'.names.outline.Within n) (fun _ _ => True)

/-- From twins the steps `x` and `y` succeed both, with answers that `R` relates, and lead to twins, or
both fail with the same fault. -/
def Parallels (q : Prop) (s₀ t₀ : Session) (x y : Check α) (R : α → α → Prop) : Prop :=
  ∀ s t, Twin q s₀ t₀ s t → Echoes x y s t fun a b s' t' => R a b ∧ Twin q s₀ t₀ s' t'

/-- From twins the step `x` answers the same. -/
def Repeats (q : Prop) (s₀ t₀ : Session) (x : Check α) (P : α → Prop) : Prop :=
  Parallels q s₀ t₀ x x fun a b => b = a ∧ (q → P a)

variable {x y : Check α} {f g : α → Check β} {P P' : α → Prop} {Q : β → Prop}
  {R : α → α → Prop} {S : β → β → Prop}

theorem Notes.steady (h : Notes x) : Steady x := by
  intro n s hw
  refine (h s).mono (fun _ s' hn => ⟨hn.types, ?_⟩) fun _ _ _ => trivial
  rwa [Registry.outline_congr hn.tables_eq]

theorem Steady.modify {k : Session → Session} (hk : ∀ n s, s.names.outline.Within n →
      (k s).names.types = s.names.types ∧ (k s).names.outline.Within n) : Steady (modify k) := by
  intro n s hw
  obtain ⟨ht, hw'⟩ := hk n s hw
  exact Ends.modify ⟨ht ▸ .refl _, hw'⟩

/-- A step that visits nothing records nothing. -/
theorem Tells.quiet_ends (hx : q → Tells x P [] []) (hs : q → s.Legible) :
    Ends x s (fun a s' => q → P a ∧ s'.Legible ∧ s'.types = s.types) (fun _ _ => True) := by
  refine Ends.of_run (fun a s' hrun hq => ?_) fun _ _ _ => trivial
  obtain ⟨ha, vs, hvs, hacc⟩ := (hx hq s (hs hq)).ok hrun
  obtain ⟨added, hadded, hd⟩ := hacc.recorded
  rw [List.map_eq_nil_iff.mp hvs] at hd
  rw [List.map_eq_nil_iff.mp hd] at hadded
  exact ⟨ha, hacc.legible, hadded⟩

namespace Parallels

theorem pure {a b : α} (h : R a b) : Parallels q s₀ t₀ (Pure.pure a) (Pure.pure b) R :=
  fun _ _ hT => Echoes.pure ⟨h, hT⟩

theorem bind (hx : Parallels q s₀ t₀ x y R) (hf : ∀ a b, R a b → Parallels q s₀ t₀ (f a) (g b) S) :
    Parallels q s₀ t₀ (x >>= f) (y >>= g) S :=
  fun s t hT => (hx s t hT).seq fun a b s' t' h => hf a b h.1 s' t' h.2

theorem mono {R' : α → α → Prop} (hx : Parallels q s₀ t₀ x y R) (hR : ∀ a b, R a b → R' a b) :
    Parallels q s₀ t₀ x y R' :=
  fun s t hT => (hx s t hT).mono fun a b _ _ h => ⟨hR a b h.1, h.2⟩

/-- A look at both sessions. -/
theorem get {k l : Session → Check α} (h : ∀ s t, Twin q s₀ t₀ s t →
      Echoes (k s) (l t) s t fun a b s' t' => R a b ∧ Twin q s₀ t₀ s' t') :
    Parallels q s₀ t₀ (MonadState.get >>= k) (MonadState.get >>= l) R := h

/-- Steps that keep sessions alike and record nothing. -/
theorem quiet (h : ∀ s t, Alike s t → Echoes x y s t fun a b s' t' => R a b ∧ Alike s' t')
    (hx : Steady x) (hy : Steady y) (hqx : q → Tells x P [] []) (hqy : q → Tells y P' [] []) :
    Parallels q s₀ t₀ x y fun a b => R a b ∧ (q → P a) := by
  intro s t hT
  have hwt : t.names.outline.Within t₀.names.types.types.length := hT.outline ▸ hT.within
  have hs := (hx _ s hT.within).and (Tells.quiet_ends hqx fun hq => (hT.told hq).left)
  have ht := (hy _ t hwt).and (Tells.quiet_ends hqy fun hq => (hT.told hq).right)
  refine ((h s t hT.toAlike).and_ends hs ht).mono ?_
  rintro a b s' t' ⟨⟨hR, hA⟩, ⟨⟨hgs, hw⟩, hqs⟩, ⟨hgt, _⟩, hqt⟩
  refine ⟨⟨hR, fun hq => (hqs hq).1⟩, hA, hT.ordered, hT.left.trans hgs, hT.right.trans hgt, hw, ?_⟩
  intro hq
  obtain ⟨_, hls, hes⟩ := hqs hq
  obtain ⟨_, hlt, het⟩ := hqt hq
  have hnone : ∀ n ∈ ([] : List (Nat × ValueType)), n.2 ≠ .undefined := by simp
  exact (hT.told hq).step hls hlt hgs hgt hnone ⟨[], by simpa using hes, rfl⟩
    ⟨[], by simpa using het, rfl⟩

/-- Changes of the sessions that record nothing. -/
theorem modify {k l : Session → Session} (h : ∀ s t, Alike s t → Alike (k s) (l t))
    (hk : Steady (modify k)) (hl : Steady (modify l))
    (hqk : q → Tells (modify k) (fun _ => True) [] [])
    (hql : q → Tells (modify l) (fun _ => True) [] []) :
    Parallels q s₀ t₀ (modify k) (modify l) fun _ _ => True :=
  (quiet (R := fun _ _ => True) (fun s t hA => Echoes.modify ⟨trivial, h s t hA⟩) hk hl hqk hql).mono
    fun _ _ _ => trivial

end Parallels

namespace Repeats

theorem pure {a : α} (h : q → P a) : Repeats q s₀ t₀ (Pure.pure a) P := Parallels.pure ⟨rfl, h⟩

theorem fail (p : Position) (e : SemanticError) : Repeats q s₀ t₀ (Check.fail p e) P :=
  fun _ _ _ => Echoes.throw _

theorem bind (hx : Repeats q s₀ t₀ x P) (hf : ∀ a, (q → P a) → Repeats q s₀ t₀ (f a) Q) :
    Repeats q s₀ t₀ (x >>= f) Q := by
  refine Parallels.bind hx ?_
  rintro a b ⟨rfl, hb⟩
  exact hf b hb

/-- A step that leaves the sessions as they are. -/
theorem same (h : ∀ s t, Alike s t → Echoes x x s t (Same s t)) (hx : Notes x)
    (hq : q → Tells x P [] []) : Repeats q s₀ t₀ x P := by
  refine Parallels.quiet (fun s t hA => (h s t hA).mono ?_) hx.steady hx.steady hq hq
  rintro a b s' t' ⟨hb, rfl, rfl⟩
  exact ⟨hb, hA⟩

/-- Steps without an answer. -/
theorem of_parallels {x : Check PUnit} (h : Parallels q s₀ t₀ x x fun _ _ => True) :
    Repeats q s₀ t₀ x fun _ => True := h.mono fun _ _ _ => ⟨rfl, fun _ => trivial⟩

/-- A change of the sessions that records nothing. -/
theorem modify {k : Session → Session} (h : ∀ s t, Alike s t → Alike (k s) (k t))
    (hk : Steady (modify k)) (hq : q → Tells (modify k) (fun _ => True) [] []) :
    Repeats q s₀ t₀ (modify k) fun _ => True := .of_parallels (.modify h hk hk hq hq)

theorem map {k : α → β} (h : Repeats q s₀ t₀ x P) (hk : ∀ a, P a → Q (k a)) :
    Repeats q s₀ t₀ (k <$> x) Q := by
  rw [map_eq_pure_bind]
  exact h.bind fun a ha => .pure fun hq => hk a (ha hq)

theorem forM {γ : Type} {k : γ → Check PUnit} {cs : List γ}
    (hk : ∀ c ∈ cs, Repeats q s₀ t₀ (k c) fun _ => True) :
    Repeats q s₀ t₀ (cs.forM k) fun _ => True := by
  induction cs with
  | nil => exact pure fun _ => trivial
  | cons c cs ih =>
    rw [List.forall_mem_cons] at hk
    exact hk.1.bind fun _ _ => ih hk.2

theorem forM_option {γ : Type} {k : γ → Check PUnit}
    (hk : ∀ c, Repeats q s₀ t₀ (k c) fun _ => True) (o : Option γ) :
    Repeats q s₀ t₀ (o.forM k) fun _ => True := by
  cases o with
  | none => exact pure fun _ => trivial
  | some c => exact hk c

end Repeats

/-! ### Looking things up -/

theorem isConstant_outline (o : Option Symbol) :
    isConstant (o.map Symbol.outline) = isConstant o := by
  cases o with
  | none => rfl
  | some x =>
    obtain ⟨id, kind, exported, position⟩ := x
    cases kind <;> rfl

section Look

variable (h : Alike s t)

include h

theorem echoes_lookup? (id : String) : Echoes (lookup? id) (lookup? id) s t
    fun a b s' t' => b.map Symbol.outline = a.map Symbol.outline ∧ s' = s ∧ t' = t :=
  Echoes.bind (Echoes.get (Echoes.pure ⟨h.lookup? id, rfl, rfl⟩))

theorem echoes_nameType (token : Token) :
    Echoes (nameType token) (nameType token) s t (Same s t) := by
  refine (echoes_ofExcept _).seq ?_
  rintro _ id s t ⟨rfl, rfl, rfl⟩
  refine (echoes_lookup? h id).seq ?_
  rintro (_ | x) (_ | y) s t ⟨ho, rfl, rfl⟩
  · exact Echoes.throw _
  · cases ho
  · cases ho
  · have hvalue : y.isValue = x.isValue := by
      rw [← Symbol.isValue_outline y, Option.some.inj ho, Symbol.isValue_outline]
    dsimp only
    rw [hvalue]
    split
    · refine Echoes.bind (Echoes.get ?_)
      rw [h.memory]
      split
      · exact Echoes.pure ⟨rfl, rfl, rfl⟩
      · exact Echoes.throw _
    · exact Echoes.throw _

theorem echoes_fieldType (left : ValueType) (op : Token) (right : Expr) :
    Echoes (fieldType left op right) (fieldType left op right) s t (Same s t) := by
  refine (echoes_ofExcept _).seq ?_
  rintro _ field s t ⟨rfl, rfl, rfl⟩
  refine Echoes.bind (Echoes.get ?_)
  rw [h.memory]
  split
  · dsimp only
    split
    · exact Echoes.pure ⟨rfl, rfl, rfl⟩
    · exact Echoes.throw _
  · exact Echoes.throw _

theorem echoes_parametersOf (callee : Token) (id : String) :
    Echoes (parametersOf callee id) (parametersOf callee id) s t (Same s t) := by
  refine (echoes_lookup? h id).seq ?_
  rintro (_ | x) (_ | y) s t ⟨ho, rfl, rfl⟩
  · exact Echoes.throw _
  · cases ho
  · cases ho
  · dsimp only
    rcases Symbol.kind_congr (Option.some.inj ho) with ⟨k, k', hx, hy⟩ | ⟨k, k', hx, hy⟩ |
      ⟨fs, fs', hx, hy⟩ | ⟨args, returns, hx, hy⟩
    · rw [hx, hy]
      exact Echoes.throw _
    · rw [hx, hy]
      exact Echoes.throw _
    · rw [hx, hy]
      exact Echoes.throw _
    · rw [hx, hy]
      exact Echoes.pure ⟨rfl, rfl, rfl⟩

theorem echoes_callType (callee : Token) (id : String) :
    Echoes (callType callee id) (callType callee id) s t (Same s t) := by
  refine Echoes.bind (Echoes.get ?_)
  dsimp only
  rw [h.memory]
  split
  · exact Echoes.pure ⟨rfl, rfl, rfl⟩
  · exact Echoes.throw _

end Look

theorem repeats_ofExcept {y : Except SemanticFault α} (h : q → ∀ a, y = .ok a → P a) :
    Repeats q s₀ t₀ (ofExcept y) P :=
  .same (fun _ _ _ => echoes_ofExcept y) (notes_ofExcept y) fun hq => tells_ofExcept (h hq)

theorem repeats_name (token : Token) : Repeats q s₀ t₀ (ofExcept (nameOf token)) fun _ => True :=
  repeats_ofExcept fun _ _ _ => trivial

theorem repeats_nameType (token : Token) :
    Repeats q s₀ t₀ (nameType token) ValueType.Readable :=
  .same (fun _ _ h => echoes_nameType h token) (notes_nameType token) fun _ => tells_nameType token

theorem repeats_fieldType (left : ValueType) (op : Token) (right : Expr) :
    Repeats q s₀ t₀ (fieldType left op right) ValueType.Readable :=
  .same (fun _ _ h => echoes_fieldType h left op right) (notes_fieldType left op right)
    fun _ => tells_fieldType left op right

theorem repeats_callType (callee : Token) (id : String) :
    Repeats q s₀ t₀ (callType callee id) ValueType.Readable :=
  .same (fun _ _ h => echoes_callType h callee id) (notes_callType callee id)
    fun _ => tells_callType callee id

/-- The arguments of a function have handles of the common table. -/
theorem parallels_parametersOf (callee : Token) (id : String) :
    Parallels q s₀ t₀ (parametersOf callee id) (parametersOf callee id)
      fun a b => b = a ∧ ∀ p ∈ a, p.type < t₀.names.types.types.length := by
  intro s t hT
  refine ((echoes_parametersOf hT.toAlike callee id).and_ends (parametersOf_ends callee id)
    Ends.run).mono ?_
  rintro _ params s t ⟨⟨rfl, rfl, rfl⟩, ⟨_, x, returns, hx, hk⟩, _⟩
  have hfound := Registry.lookup?_outline s.names s.file id
  rw [hx, Option.map_some] at hfound
  exact ⟨⟨rfl, Symbol.within_outline.mp (hT.within.lookup? hfound) params returns hk⟩, hT⟩

/-! ### Expressions -/

theorem repeats_requireValue (e : Expr) {ty : ValueType} (h : q → ty.Readable) :
    Repeats q s₀ t₀ (requireValue e ty) ValueType.Plain := by
  unfold requireValue
  split
  · exact .fail _ _
  · next hu => exact .pure fun hq => (h hq).plain fun ht => hu (by rw [ht]; rfl)

/-- Both runs record the type, each under a handle of its own. -/
theorem repeats_record (id : Nat) {ty : ValueType} (h : q → ty.Readable) :
    Repeats q s₀ t₀ (record id ty) ValueType.Readable := by
  intro s t hT
  refine ((echoes_record hT.toAlike id ty).and_ends ((notes_record id ty s).and Ends.run)
    ((notes_record id ty t).and Ends.run)).mono ?_
  rintro a b s' t' ⟨⟨rfl, hA⟩, ⟨hs, hrun⟩, ht, hrun'⟩
  have hlegible : ∀ hq : q, _ := fun hq => (record_ends (hT.told hq).left (h hq) id).ok hrun
  have hlegible' : ∀ hq : q, _ := fun hq => (record_ends (hT.told hq).right (h hq) id).ok hrun'
  refine ⟨⟨rfl, fun hq => (hlegible hq).1 ▸ h hq⟩, hA, hT.ordered, hT.left.trans hs.types,
    hT.right.trans ht.types, ?_, fun hq => ?_⟩
  · rw [Registry.outline_congr hs.tables_eq]
    exact hT.within
  · obtain ⟨_, hl, hg, hadded⟩ := hlegible hq
    obtain ⟨_, hl', hg', hadded'⟩ := hlegible' hq
    refine (hT.told hq).step hl hl' hg hg' (fun n hn => ?_) hadded hadded'
    split at hn
    · cases hn
    · next hne =>
      rw [List.mem_singleton.mp hn]
      exact hne

theorem Repeats.expr {e : Expr} (h : Repeats q s₀ t₀ (typed e) ValueType.Readable) :
    Repeats q s₀ t₀ (expr e) ValueType.Readable := by
  rw [expr_eq]
  exact h.bind fun _ ht => repeats_record e.id ht

theorem Repeats.value {e : Expr} (h : Repeats q s₀ t₀ (Check.expr e) ValueType.Readable) :
    Repeats q s₀ t₀ (value e) ValueType.Plain :=
  h.bind fun _ ht => repeats_requireValue e ht

mutual

theorem repeats_typed : ∀ e : Expr, Repeats q s₀ t₀ (typed e) ValueType.Readable
  | .literal id token => repeats_ofExcept fun _ t ht => (ValueType.ofLiteral_plain ht).readable
  | .ident id token => repeats_nameType token
  | .unary id op operand => by
    refine (repeats_typed operand).expr.value.bind fun t ht => ?_
    exact repeats_ofExcept fun hq t' h => (ValueType.ofUnary_plain (ht hq) h).readable
  | .binary id left op right => by
    refine (repeats_typed left).expr.value.bind fun l hl => ?_
    split
    · exact repeats_fieldType l op right
    · refine (repeats_typed right).expr.value.bind fun r hr => ?_
      exact repeats_ofExcept fun hq t h => (ValueType.ofBinary_plain (hl hq) (hr hq) h).readable
  | .call id callee args => by
    refine (repeats_name callee).bind fun name _ => ?_
    refine Parallels.bind (parallels_parametersOf callee name) ?_
    rintro _ params ⟨rfl, hw⟩
    split
    · exact (repeats_arguments name 1 args params hw).bind fun _ _ => repeats_callType callee name
    · exact Repeats.fail _ _
  | .index id target bracket subscript => by
    refine (repeats_typed target).expr.value.bind fun t ht => ?_
    refine (repeats_typed subscript).expr.value.bind fun i _ => ?_
    exact repeats_ofExcept fun hq t' h => (ValueType.ofIndex_plain (ht hq) h).readable

theorem repeats_arguments (callee : String) : ∀ (number : Nat) (args : List Expr)
    (params : List TypedName), (∀ p ∈ params, p.type < t₀.names.types.types.length) →
    Repeats q s₀ t₀ (arguments callee number args params) fun _ => True
  | number, [], params, _ => by
    rw [arguments]
    · exact .pure fun _ => trivial
    · intro arg args param params h
      cases h
  | number, arg :: args, [], _ => by
    rw [arguments]
    · exact .pure fun _ => trivial
    · intro arg args param params _ h
      cases h
  | number, arg :: args, param :: params, hw => by
    rw [List.forall_mem_cons] at hw
    rw [arguments_cons]
    refine (repeats_typed arg).expr.value.bind fun found _ => Parallels.get fun s t hT => ?_
    have hexpected : t.names.types.valueType param.type = s.names.types.valueType param.type := by
      rw [TypeTable.valueType_mono hT.ordered hT.right.entries hw.1,
        TypeTable.valueType_mono hT.ordered hT.left.entries hw.1]
    dsimp only
    rw [hexpected]
    split
    · exact repeats_arguments callee (number + 1) args params hw.2 s t hT
    · exact Repeats.fail _ _ s t hT

end

theorem repeats_expr (e : Expr) : Repeats q s₀ t₀ (expr e) ValueType.Readable :=
  (repeats_typed e).expr

theorem repeats_value (e : Expr) : Repeats q s₀ t₀ (value e) ValueType.Plain :=
  (repeats_expr e).value

end Check

end StoragePlan
