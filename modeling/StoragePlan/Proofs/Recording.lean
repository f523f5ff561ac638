import StoragePlan.Proofs.Legible
import StoragePlan.Proofs.Moments
import StoragePlan.Proofs.Numbering

/-!
What a check records. The check of a part of a program begins the check of every expression node in it
once, in the order in which the nodes are complete, and adds one entry for each that has a value: the
number of the node with a handle that stands for the type of the node. `Tells` says this of a step
together with the calls that it makes; its rules follow the shape of a `do` block, so the proof for a
file is a walk along the check.
-/

namespace StoragePlan

/-! ### Arriving at a task -/

/-- One of the calls leads to a task in a session. -/
def Arrives (cs : List (Check Task)) (s : Session) (t' : Task) (s' : Session) : Prop :=
  ∃ c ∈ cs, ∃ t s₁, c s = .ok t s₁ ∧ Reaches t s₁ t' s'

section Arrives

variable {cs ds : List (Check Task)} {s s₁ s' : Session} {t t' : Task}

theorem not_arrives_nil : ¬ Arrives [] s t s' := by
  rintro ⟨c, hc, _⟩
  cases hc

theorem arrives_append : Arrives (cs ++ ds) s t s' ↔ Arrives cs s t s' ∨ Arrives ds s t s' := by
  constructor
  · rintro ⟨c, hc, h⟩
    exact (List.mem_append.mp hc).imp (fun hc => ⟨c, hc, h⟩) (fun hc => ⟨c, hc, h⟩)
  · rintro (⟨c, hc, h⟩ | ⟨c, hc, h⟩)
    · exact ⟨c, List.mem_append_left _ hc, h⟩
    · exact ⟨c, List.mem_append_right _ hc, h⟩

theorem arrives_pure : Arrives [pure t] s t' s' ↔ Reaches t s t' s' := by
  constructor
  · rintro ⟨c, hc, u, s₁, hr, h⟩
    obtain rfl := List.mem_singleton.mp hc
    cases hr
    exact h
  · exact fun h => ⟨pure t, List.mem_singleton.mpr rfl, t, s, rfl, h⟩

/-- Calls that come after a step are calls from where the step ends. -/
theorem arrives_bind {α : Type} {x : Check α} {a : α} {ds : List (α → Check Task)}
    (hx : x s = .ok a s₁) :
    Arrives (ds.map fun d => x >>= d) s t s' ↔ Arrives (ds.map (· a)) s₁ t s' := by
  constructor
  · rintro ⟨c, hc, u, s₂, hr, h⟩
    obtain ⟨d, hd, rfl⟩ := List.mem_map.mp hc
    exact ⟨d a, List.mem_map_of_mem hd, u, s₂, (bind_of_ok hx).symm.trans hr, h⟩
  · rintro ⟨c, hc, u, s₂, hr, h⟩
    obtain ⟨d, hd, rfl⟩ := List.mem_map.mp hc
    exact ⟨x >>= d, List.mem_map_of_mem hd, u, s₂, (bind_of_ok hx).trans hr, h⟩

theorem reaches_iff : Reaches t s t' s' ↔ (t' = t ∧ s' = s) ∨ Arrives t.calls s t' s' := by
  constructor
  · intro h
    cases h with
    | here => exact .inl ⟨rfl, rfl⟩
    | call hx hr h => exact .inr ⟨_, hx, _, _, hr, h⟩
  · rintro (⟨rfl, rfl⟩ | ⟨x, hx, u, s₁, hr, h⟩)
    · exact .here _ _
    · exact .call hx hr h

end Arrives

/-! ### Entries -/

/-- The entries with the types that their handles stand for. -/
def NodeTypes.decoded (types : TypeTable) (nodes : NodeTypes) : List (Nat × ValueType) :=
  nodes.map fun n => (n.1, types.valueType n.2)

theorem NodeTypes.decoded_append (types : TypeTable) (nodes nodes' : NodeTypes) :
    decoded types (nodes ++ nodes') = decoded types nodes ++ decoded types nodes' :=
  List.map_append

/-- Entries that stand for something go on doing so while the table grows. -/
theorem NodeTypes.decoded_mono {t t' : TypeTable} (ho : t.Ordered) (hg : t.Grown t')
    {nodes : NodeTypes} (hd : ∀ n ∈ decoded t nodes, n.2 ≠ .undefined) :
    decoded t' nodes = decoded t nodes := by
  refine List.map_congr_left fun n hn => ?_
  have hdef := hd _ (List.mem_map_of_mem hn)
  rw [TypeTable.valueType_mono ho hg.entries (TypeTable.lt_of_valueType hdef)]

/-- The type that the entry of a node stands for. -/
def NodeTypes.typeOf? (types : TypeTable) (nodes : NodeTypes) (n : Nat) : Option ValueType :=
  (nodes.get? n).map types.valueType

/-- Where no two entries share a number, each is found under its own. -/
theorem NodeTypes.typeOf?_eq_some {types : TypeTable} {nodes : NodeTypes}
    (hn : (nodes.map (·.1)).Nodup) {n : Nat} {t : ValueType} :
    nodes.typeOf? types n = some t ↔ (n, t) ∈ nodes.decoded types := by
  induction nodes with
  | nil => simp [typeOf?, get?, decoded]
  | cons e rest ih =>
    rw [List.map_cons, List.nodup_cons] at hn
    have ih := ih hn.2
    simp only [typeOf?, get?, decoded] at ih ⊢
    rw [List.lookup_cons, List.map_cons, List.mem_cons]
    by_cases he : n = e.1
    · subst he
      have hnot : (e.1, t) ∉ rest.map fun m => (m.1, types.valueType m.2) := by
        intro hm
        obtain ⟨m, hmem, heq⟩ := List.mem_map.mp hm
        exact hn.1 (List.mem_map.mpr ⟨m, hmem, (Prod.mk.inj heq).1⟩)
      simp only [beq_self_eq_true, Option.map_some, Option.some.injEq, hnot, or_false,
        Prod.mk.injEq, true_and]
      exact eq_comm
    · have hb : (n == e.1) = false := by simpa using he
      simp only [hb, Prod.mk.injEq, he, false_and, false_or]
      exact ih

theorem NodeTypes.typeOf?_mono {t t' : TypeTable} (ho : t.Ordered) (hg : t.Grown t')
    {nodes : NodeTypes} {n : Nat} {ty : ValueType} (h : nodes.typeOf? t n = some ty)
    (hd : ty ≠ .undefined) : nodes.typeOf? t' n = some ty := by
  obtain ⟨k, hk, rfl⟩ := Option.map_eq_some_iff.mp h
  rw [typeOf?, hk, Option.map_some,
    TypeTable.valueType_mono ho hg.entries (TypeTable.lt_of_valueType hd)]

/-- An expression with a session in which its check begins. -/
abbrev Visit := Expr × Session

/-- The entry that a visit leads to. -/
def Visit.entry? (v : Visit) : Option (Nat × ValueType) :=
  match Check.expr v.1 v.2 with
  | .ok t _ => if t = .undefined then none else some (v.1.id, t)
  | .error _ _ => none

theorem Visit.entry?_eq_some {v : Visit} {n : Nat × ValueType} :
    v.entry? = some n ↔
      ∃ s', Check.expr v.1 v.2 = .ok n.2 s' ∧ v.1.id = n.1 ∧ n.2 ≠ .undefined := by
  obtain ⟨k, ty⟩ := n
  unfold Visit.entry?
  cases hr : Check.expr v.1 v.2 with
  | error e s' => simp
  | ok t s' =>
    by_cases ht : t = .undefined
    · simp only [ht, if_true]
      constructor
      · intro h
        cases h
      · rintro ⟨_, h, _, hne⟩
        cases h
        exact absurd rfl hne
    · simp only [ht, if_false, Option.some.injEq, Prod.mk.injEq, EStateM.Result.ok.injEq]
      constructor
      · rintro ⟨hk, rfl⟩
        exact ⟨s', ⟨rfl, rfl⟩, hk, ht⟩
      · rintro ⟨_, ⟨rfl, _⟩, hk, _⟩
        exact ⟨hk, rfl⟩

theorem entries_sublist (vs : List Visit) :
    ((vs.filterMap Visit.entry?).map (·.1)).Sublist (vs.map (·.1.id)) := by
  induction vs with
  | nil => exact .refl _
  | cons v vs ih =>
    rw [List.filterMap_cons, List.map_cons]
    split
    · exact ih.cons _
    · next n hn =>
      obtain ⟨_, _, hid, _⟩ := Visit.entry?_eq_some.mp hn
      rw [List.map_cons, ← hid]
      exact ih.cons_cons _

theorem entries_defined {vs : List Visit} :
    ∀ n ∈ (vs.filterMap Visit.entry?).reverse, n.2 ≠ .undefined := by
  intro n hn
  obtain ⟨v, _, hv⟩ := List.mem_filterMap.mp (List.mem_reverse.mp hn)
  obtain ⟨_, _, _, hne⟩ := Visit.entry?_eq_some.mp hv
  exact hne

/-- The check that leads from `s` to `e` with the calls `cs` has made the visits `vs`, in turn, and has
recorded the types of the nodes. -/
structure Account (cs : List (Check Task)) (vs : List Visit) (s e : Session) : Prop where
  legible : e.Legible
  types : s.names.types.Grown e.names.types
  visits : ∀ n s', Arrives cs s (.expr n) s' ↔ (n, s') ∈ vs
  right : ∀ v ∈ vs, v.2.Legible ∧ ∃ t s', Check.expr v.1 v.2 = .ok t s'
  recorded : ∃ added : NodeTypes, e.types = added ++ s.types ∧
    added.decoded e.names.types = (vs.filterMap Visit.entry?).reverse

namespace Account

variable {cs cs' ds : List (Check Task)} {vs ws : List Visit} {s s₁ e : Session}

/-- Nothing is visited or recorded. -/
theorem quiet (hl : e.Legible) (ht : s.names.types.Grown e.names.types) (he : e.types = s.types) :
    Account [] [] s e :=
  ⟨hl, ht, fun _ _ => ⟨fun h => absurd h not_arrives_nil, fun h => nomatch h⟩, by simp,
    [], by simp [he], rfl⟩

theorem congr (h : Account cs vs s e)
    (hc : ∀ n s', Arrives cs' s (.expr n) s' ↔ Arrives cs s (.expr n) s') : Account cs' vs s e :=
  { h with visits := fun n s' => (hc n s').trans (h.visits n s') }

/-- Two accounts in turn. -/
theorem trans (h : Account cs vs s s₁) (h' : Account ds ws s₁ e)
    (hc : ∀ n s', Arrives cs' s (.expr n) s' ↔
      Arrives cs s (.expr n) s' ∨ Arrives ds s₁ (.expr n) s') : Account cs' (vs ++ ws) s e := by
  constructor
  case legible => exact h'.legible
  case types => exact h.types.trans h'.types
  case visits =>
    intro n s'
    rw [hc, h.visits, h'.visits, List.mem_append]
  case right =>
    intro v hv
    exact (List.mem_append.mp hv).elim (h.right v) (h'.right v)
  case recorded =>
    obtain ⟨added, ha, hd⟩ := h.recorded
    obtain ⟨more, hm, hd'⟩ := h'.recorded
    refine ⟨more ++ added, by rw [hm, ha, List.append_assoc], ?_⟩
    have hkept : added.decoded e.names.types = added.decoded s₁.names.types :=
      NodeTypes.decoded_mono h.legible.types.ordered h'.types (hd ▸ entries_defined)
    rw [NodeTypes.decoded_append, hd', hkept, hd, List.filterMap_append, List.reverse_append]

end Account

/-! ### Steps -/

variable {α β : Type}

namespace Check

/-- From the legible session `s` the step answers as `P` says, and has visited the nodes `ns` with the
calls `cs`; the session stays legible, whether the step succeeds or fails. -/
def TellsFrom (s : Session) (x : Check α) (P : α → Prop) (cs : List (Check Task)) (ns : List Expr) :
    Prop :=
  s.Legible → Ends x s (fun a e => P a ∧ ∃ vs : List Visit, vs.map (·.1) = ns ∧ Account cs vs s e)
    (fun _ e => e.Legible)

def Tells (x : Check α) (P : α → Prop) (cs : List (Check Task)) (ns : List Expr) : Prop :=
  ∀ s, TellsFrom s x P cs ns

variable {x : Check α} {f : α → Check β} {P : α → Prop} {Q : β → Prop} {cs : List (Check Task)}
  {ns ms : List Expr} {s : Session}

namespace Tells

theorem fail (p : Position) (e : SemanticError) : Tells (Check.fail p e) P cs ns :=
  fun _ hs => Ends.throw hs

theorem still (h : ∀ s, s.Legible → Ends x s (fun a s' => s' = s ∧ P a) (fun _ s' => s' = s)) :
    Tells x P [] [] := by
  intro s hs
  refine (h s hs).mono ?_ fun _ _ he => he ▸ hs
  rintro a s' ⟨rfl, ha⟩
  exact ⟨ha, [], rfl, .quiet hs (.refl _) rfl⟩

theorem pure {a : α} (h : P a) : Tells (Pure.pure a) P [] [] :=
  still fun _ _ => Ends.pure ⟨rfl, h⟩

/-- A look at the session. -/
theorem get {g : Session → Check β} (h : ∀ s, s.Legible → TellsFrom s (g s) Q cs ns) :
    Tells (MonadState.get >>= g) Q cs ns := fun s hs => h s hs hs

/-- A change of the session that records nothing. -/
theorem modify {g : Session → Session} (h : ∀ s, s.Legible →
      (g s).Legible ∧ (g s).names.types = s.names.types ∧ (g s).types = s.types) :
    Tells (modify g) (fun _ => True) [] [] := by
  intro s hs
  obtain ⟨hl, ht, hn⟩ := h s hs
  exact Ends.modify ⟨trivial, [], rfl, .quiet hl (ht ▸ .refl _) hn⟩

/-- Two steps in turn, with the calls of both. -/
theorem bind (hx : Tells x P cs ns) (ds : List (α → Check Task))
    (hf : ∀ a, P a → Tells (f a) Q (ds.map (· a)) ms) :
    Tells (x >>= f) Q (cs ++ ds.map fun d => x >>= d) (ns ++ ms) := by
  intro s hs
  refine ((hx s hs).and Ends.run).seq (fun _ _ h => h.1) ?_
  rintro a s₁ ⟨⟨ha, vs, hv, hacc⟩, hrun⟩
  refine (hf a ha s₁ hacc.legible).mono ?_ fun _ _ h => h
  rintro b e ⟨hb, ws, hw, hacc'⟩
  refine ⟨hb, vs ++ ws, by rw [List.map_append, hv, hw], hacc.trans hacc' fun n s' => ?_⟩
  rw [arrives_append, arrives_bind hrun]

/-- A step that visits nothing comes first. -/
theorem after (hx : Tells x P [] []) (ds : List (α → Check Task))
    (hf : ∀ a, P a → Tells (f a) Q (ds.map (· a)) ms) :
    Tells (x >>= f) Q (ds.map fun d => x >>= d) ms := hx.bind ds hf

/-- The same calls, with one more step before them. -/
theorem leading {γ : Type} {is : List γ} {d : γ → α → Check Task} (hx : Tells x P [] [])
    (hf : ∀ a, P a → Tells (f a) Q (is.map fun i => d i a) ms) :
    Tells (x >>= f) Q (is.map fun i => x >>= d i) ms := by
  have h := hx.after (is.map d) fun a ha => by simpa [Function.comp_def] using hf a ha
  simpa [Function.comp_def] using h

/-- A step that visits nothing comes last. -/
theorem before (hx : Tells x P cs ns) (hf : ∀ a, P a → Tells (f a) Q [] []) :
    Tells (x >>= f) Q cs ns := by
  simpa using hx.bind [] hf

theorem map {g : α → β} (h : Tells x P [] []) (hg : ∀ a, P a → Q (g a)) : Tells (g <$> x) Q [] [] := by
  rw [map_eq_pure_bind]
  exact h.before fun a ha => pure (hg a ha)

/-- The calls of a task are what it leads to, except that an expression leads to itself as well. -/
theorem task {t : Task} (ht : ∀ n, t ≠ .expr n) (h : Tells x P t.calls ns) :
    Tells x P [Pure.pure t] ns := by
  intro s hs
  refine (h s hs).mono ?_ fun _ _ hl => hl
  rintro a e ⟨ha, vs, hv, hacc⟩
  refine ⟨ha, vs, hv, hacc.congr fun n s' => ?_⟩
  rw [arrives_pure, reaches_iff]
  exact or_iff_right fun he => ht n he.1.symm

theorem forM {γ : Type} {g : γ → Check PUnit} {cs : List γ}
    (hg : ∀ c ∈ cs, Tells (g c) (fun _ => True) [] []) : Tells (cs.forM g) (fun _ => True) [] [] := by
  induction cs with
  | nil => exact pure trivial
  | cons c cs ih =>
    rw [List.forall_mem_cons] at hg
    exact hg.1.before fun _ _ => ih hg.2

end Tells

/-- The type that is recorded stands for itself, in a session that stays legible. -/
theorem record_ends {t : ValueType} (hs : s.Legible) (ht : t.Readable) (id : Nat) :
    Ends (record id t) s (fun a e => a = t ∧ e.Legible ∧ s.names.types.Grown e.names.types ∧
        ∃ added : NodeTypes, e.types = added ++ s.types ∧
          added.decoded e.names.types = if t = .undefined then [] else [(id, t)])
      (fun _ e => e.Legible) := by
  refine (intern?_ends t).seq (fun _ _ h => h.elim) ?_
  rintro (_ | h) s' hs'
  · obtain ⟨rfl, hi⟩ := hs'
    have hu : t = .undefined := by
      refine Decidable.byContradiction fun hu => ?_
      have hd : t.Defined := (ht.plain hu).defined
      have hsome := TypeTable.intern?_isSome (t := s'.names.types) hd
      simp [hi] at hsome
    refine Ends.bind (Ends.pure (Ends.pure ⟨rfl, hs, .refl _, [], rfl, ?_⟩))
    rw [if_pos hu]
    rfl
  · obtain ⟨types, rfl, hi⟩ := hs'
    have hu : t ≠ .undefined := by
      rintro rfl
      cases hi
    obtain ⟨htidy, hdecode⟩ := hs.types.intern? (ht.plain hu) hi
    refine Ends.bind (Ends.modify (Ends.pure ⟨rfl, ⟨hs.memory, htidy, hs.udts⟩,
      (TypeTable.intern?_grown hi).1, [(id, h)], rfl, ?_⟩))
    rw [if_neg hu]
    exact congrArg (fun ty => [(id, ty)]) hdecode

/-! ### Expressions -/

/-- The type of an expression, before it is recorded. -/
def typed : Expr → Check ValueType
  | .literal _ token => ofExcept (ValueType.ofLiteral token)
  | .ident _ token => nameType token
  | .binary _ left op right => do
    let l ← value left
    if Expr.isAccess op then
      fieldType l op right
    else
      let r ← value right
      ofExcept (ValueType.ofBinary op l r)
  | .unary _ op operand => do
    let t ← value operand
    ofExcept (ValueType.ofUnary op t)
  | .call _ callee args => do
    let name ← ofExcept (nameOf callee)
    let params ← parametersOf callee name
    if params.length = args.length then
      arguments name 1 args params
      callType callee name
    else
      fail callee.position (.wrongArgumentCount name params.length args.length)
  | .index _ target bracket subscript => do
    let t ← value target
    let i ← value subscript
    ofExcept (ValueType.ofIndex bracket t i)

theorem expr_eq (e : Expr) : expr e = (do record e.id (← typed e)) := by
  cases e with
  | literal id token => rw [expr, typed, Expr.id]
  | ident id token => rw [expr, typed, Expr.id]
  | unary id op operand => simp [expr, typed, value, Expr.id]
  | binary id left op right =>
    simp only [expr, typed, value, Expr.id, bind_assoc]
    split <;> simp
  | call id callee args =>
    simp only [expr, typed, Expr.id, bind_assoc]
    congr 1
    funext name
    congr 1
    funext params
    split
    · rw [bind_assoc]
    · rfl
  | index id target bracket subscript => simp [expr, typed, value, Expr.id]

theorem arguments_cons (callee : String) (number : Nat) (arg : Expr) (args : List Expr)
    (param : TypedName) (params : List TypedName) :
    arguments callee number (arg :: args) (param :: params) = (do
      let found ← value arg
      let expected := (← get).names.types.valueType param.type
      if expected.accepts found then
        arguments callee (number + 1) args params
      else
        fail arg.position (.argumentMismatch callee number expected found)) := by
  simp [arguments, value]

/-- An expression is visited after its operands, and its own entry comes last. -/
theorem Tells.expr {e : Expr} (h : Tells (typed e) ValueType.Readable (exprCalls e) e.operands) :
    Tells (expr e) ValueType.Readable [Pure.pure (.expr e)] e.nodes := by
  intro s hs
  rw [expr_eq]
  refine ((h s hs).and Ends.run).seq (fun _ _ h => h.1) ?_
  rintro t s₁ ⟨⟨ht, vs, hv, hacc⟩, hrun⟩
  refine ((record_ends hacc.legible ht e.id).and Ends.run).mono ?_ fun _ _ h => h.1
  rintro t' s₂ ⟨⟨ht', hl, htypes, added, ha, hd⟩, hrecord⟩
  cases ht'
  have hexpr : Check.expr e s = .ok t s₂ := by
    rw [expr_eq, bind_of_ok hrun]
    exact hrecord
  have hentry : Visit.entry? (e, s) = if t = .undefined then none else some (e.id, t) := by
    simp only [Visit.entry?, hexpr]
  refine ⟨ht, vs ++ [(e, s)], by simp [hv, e.nodes_eq], ?_⟩
  constructor
  case legible => exact hl
  case types => exact hacc.types.trans htypes
  case visits =>
    intro n s'
    rw [arrives_pure, reaches_iff, Task.calls, hacc.visits, List.mem_append, List.mem_singleton,
      Task.expr.injEq, Prod.mk.injEq, or_comm]
  case right =>
    intro v hv
    rcases List.mem_append.mp hv with hv | hv
    · exact hacc.right v hv
    · rw [List.mem_singleton.mp hv]
      exact ⟨hs, t, s₂, hexpr⟩
  case recorded =>
    obtain ⟨more, hm, hd'⟩ := hacc.recorded
    have hkept : more.decoded s₂.names.types = more.decoded s₁.names.types :=
      NodeTypes.decoded_mono hacc.legible.types.ordered htypes (hd' ▸ entries_defined)
    refine ⟨added ++ more, by rw [ha, hm, List.append_assoc], ?_⟩
    rw [NodeTypes.decoded_append, hd, hkept, hd', List.filterMap_append, List.reverse_append]
    congr 1
    simp only [List.filterMap_cons, List.filterMap_nil, hentry]
    split <;> rfl

theorem tells_ofExcept {y : Except SemanticFault α} (h : ∀ a, y = .ok a → P a) :
    Tells (ofExcept y) P [] [] :=
  .still fun _ _ => (ofExcept_ends y).mono (fun a _ he => ⟨he.1, h a he.2⟩) fun _ _ he => he.1

theorem tells_name (token : Token) : Tells (ofExcept (nameOf token)) (fun _ => True) [] [] :=
  tells_ofExcept fun _ _ => trivial

theorem tells_lookup? (id : String) : Tells (lookup? id) (fun _ => True) [] [] :=
  .still fun _ _ => (lookup?_ends id).mono (fun _ _ h => ⟨h.1, trivial⟩) fun _ _ h => h.elim

theorem tells_requireValue (e : Expr) {t : ValueType} (h : t.Readable) :
    Tells (requireValue e t) ValueType.Plain [] [] := by
  unfold requireValue
  split
  · exact .fail _ _
  · next hu => exact .pure (h.plain fun ht => hu (by rw [ht]; rfl))

theorem tells_nameType (token : Token) : Tells (nameType token) ValueType.Readable [] [] := by
  refine (tells_name token).after [] fun id _ => (tells_lookup? id).after [] fun o _ => ?_
  split
  · exact .fail _ _
  · split
    · refine .get fun s hs => ?_
      dsimp only
      split
      · exact Tells.pure (ValueType.ofName_readable hs.memory id) s
      · exact Tells.fail _ _ s
    · exact .fail _ _

theorem tells_fieldType (left : ValueType) (op : Token) (right : Expr) :
    Tells (fieldType left op right) ValueType.Readable [] [] := by
  refine (tells_ofExcept fun _ _ => trivial).after [] fun field _ => .get fun s hs => ?_
  split
  · dsimp only
    split
    · next hf => exact Tells.pure (ValueType.ofField_plain hs.memory hf).readable s
    · exact Tells.fail _ _ s
  · exact Tells.fail _ _ s

theorem tells_parametersOf (callee : Token) (id : String) :
    Tells (parametersOf callee id) (fun _ => True) [] [] := by
  refine (tells_lookup? id).after [] fun o _ => ?_
  split
  · exact .fail _ _
  · split
    · exact .pure trivial
    · exact .fail _ _

theorem tells_callType (callee : Token) (id : String) :
    Tells (callType callee id) ValueType.Readable [] [] := by
  refine .get fun s hs => ?_
  dsimp only
  split
  · exact Tells.pure (ValueType.ofCall_readable hs.memory id) s
  · exact Tells.fail _ _ s

theorem Tells.value {e : Expr}
    (h : Tells (Check.expr e) ValueType.Readable [Pure.pure (.expr e)] e.nodes) :
    Tells (value e) ValueType.Plain [Pure.pure (.expr e)] e.nodes :=
  h.before fun _ ht => tells_requireValue e ht

mutual

/-- Before the type of an expression is recorded, its operands are visited. -/
theorem tells_typed : ∀ e : Expr, Tells (typed e) ValueType.Readable (exprCalls e) e.operands
  | .literal id token => tells_ofExcept fun t ht => (ValueType.ofLiteral_plain ht).readable
  | .ident id token => tells_nameType token
  | .unary id op operand => by
    refine (tells_typed operand).expr.value.before fun t ht => ?_
    exact tells_ofExcept fun t' h => (ValueType.ofUnary_plain ht h).readable
  | .binary id left op right => by
    rw [Expr.operands]
    by_cases ha : Expr.isAccess op = true
    · simp only [typed, exprCalls, ha, if_true, List.append_nil]
      exact (tells_typed left).expr.value.before fun l _ => tells_fieldType l op right
    · simp only [typed, exprCalls, ha]
      refine (tells_typed left).expr.value.bind [fun _ => Pure.pure (.expr right)] fun l hl => ?_
      refine (tells_typed right).expr.value.before fun r hr => ?_
      exact tells_ofExcept fun t h => (ValueType.ofBinary_plain hl hr h).readable
  | .call id callee args => by
    refine (tells_name callee).after [fun name => do
      let params ← parametersOf callee name
      return .arguments name 1 args params] fun name _ => ?_
    refine (tells_parametersOf callee name).after
      [fun params => Pure.pure (.arguments name 1 args params)] fun params _ => ?_
    split
    · next hlen =>
      exact (tells_arguments name 1 args params hlen).before fun _ _ => tells_callType callee name
    · exact .fail _ _
  | .index id target bracket subscript => by
    refine (tells_typed target).expr.value.bind [fun _ => Pure.pure (.expr subscript)] fun t ht => ?_
    refine (tells_typed subscript).expr.value.before fun i _ => ?_
    exact tells_ofExcept fun t' h => (ValueType.ofIndex_plain ht h).readable

theorem tells_arguments (callee : String) : ∀ (number : Nat) (args : List Expr)
    (params : List TypedName), params.length = args.length →
    Tells (arguments callee number args params) (fun _ => True)
      [Pure.pure (.arguments callee number args params)] (Expr.nodesAll args)
  | number, [], [], _ => by
    refine .task (fun n h => by cases h) ?_
    rw [arguments]
    · exact .pure trivial
    · intro arg args param params h
      cases h
  | number, arg :: args, param :: params, hlen => by
    refine .task (fun n h => by cases h) ?_
    rw [arguments_cons]
    refine (tells_typed arg).expr.value.bind
      [fun _ => Pure.pure (.arguments callee (number + 1) args params)] fun found _ => ?_
    refine .get fun s _ => ?_
    dsimp only
    split
    · exact tells_arguments callee (number + 1) args params (Nat.succ.inj hlen) s
    · exact Tells.fail _ _ s

end

/-- The check of an expression visits its nodes, operands first. -/
theorem tells_expr (e : Expr) :
    Tells (expr e) ValueType.Readable [Pure.pure (.expr e)] e.nodes := (tells_typed e).expr

theorem tells_value (e : Expr) : Tells (value e) ValueType.Plain [Pure.pure (.expr e)] e.nodes :=
  (tells_expr e).value

end Check

end StoragePlan
