import StoragePlan.Proofs.Independence
import StoragePlan.Proofs.Meanings
import StoragePlan.Proofs.Resemblance

/-!
Bodies in sessions that resemble each other. Every declaration in a body puts the same thing on top of
both stacks and under the same name into both scopes, and a block restores what it found; so a body that
is right in one session is right, in any of its spellings, in all sessions that look the same.
-/

namespace StoragePlan

/-! ### Names in an open scope -/

namespace Registry

variable {r : Registry} {file : String}

theorem table?_of_depth (h : 0 < r.depth file) :
    ∃ t scope outer, r.table? file = some t ∧ t.scopes = scope :: outer := by
  unfold depth at h
  cases ht : r.table? file with
  | none => simp [ht] at h
  | some t =>
    cases hs : t.scopes with
    | nil => simp [ht, SymbolTable.depth, hs] at h
    | cons scope outer => exact ⟨t, scope, outer, rfl, hs⟩

/-- A scope that is opened in a file is there to be closed. -/
theorem depth_openScope_pos (h : (r.table? file).isSome) : 0 < (r.openScope file).depth file := by
  obtain ⟨t, ht⟩ := Option.isSome_iff_exists.mp h
  rw [depth_openScope ht]
  exact Nat.succ_pos _

theorem depth_addSymbol (x : Symbol) : (r.addSymbol file x).depth file = r.depth file := by
  have hadd : r.addSymbol file x = r.onTable file (·.grow [x]) := by
    simp only [addSymbol, SymbolTable.add_eq_grow]
  rw [hadd, depth_onTable_grow]

/-- In an open scope the newest declaration of a name counts. -/
theorem lookup?_addSymbol (h : 0 < r.depth file) (x : Symbol) (id : String) :
    (r.addSymbol file x).lookup? file id = if x.id = id then some x else r.lookup? file id := by
  obtain ⟨t, scope, outer, ht, hs⟩ := table?_of_depth h
  have hopen : t.scopes ≠ [] := hs ▸ List.cons_ne_nil scope outer
  rw [lookup?_eq_find?, inSight_addSymbol_of_open ht hopen, List.find?_cons, lookup?_eq_find?]
  by_cases hid : x.id = id
  · simp [hid]
  · simp [hid, beq_eq_false_iff_ne.mpr hid]

theorem current?_addSymbol (h : 0 < r.depth file) (x : Symbol) (id : String) :
    (r.addSymbol file x).current? file id = none ↔ r.current? file id = none ∧ x.id ≠ id := by
  obtain ⟨t, _, _, ht, _⟩ := table?_of_depth h
  unfold current?
  rw [addSymbol, table?_onTable (file_add x), ht, Option.map_some, Option.bind_some,
    Option.bind_some, SymbolTable.add_eq_grow, SymbolTable.current?_grow]
  simp

theorem lookup?_openScope (id : String) : (r.openScope file).lookup? file id = r.lookup? file id := by
  rw [lookup?_eq_find?, inSight_openScope, lookup?_eq_find?]

/-- A new scope has no symbols. -/
theorem current?_openScope (id : String) : (r.openScope file).current? file id = none := by
  unfold current?
  rw [openScope, table?_onTable (f := (·.openScope)) fun _ => rfl]
  cases r.table? file <;> rfl

theorem depth_addField (id : String) (field : TypedName) :
    (r.addField file id field).depth file = r.depth file := by
  have hdepth : ∀ q : Registry, q.depth file = q.outline.depth file := by
    intro q
    unfold depth
    rw [table?_outline]
    cases q.table? file <;> simp [SymbolTable.outline, SymbolTable.depth]
  rw [hdepth, outline_addField, ← hdepth]

/-- A field more does not change what sort of symbol a name means. -/
theorem lookup?_addField (id : String) (field : TypedName) (other : String) :
    ((r.addField file id field).lookup? file other).map Symbol.outline =
      (r.lookup? file other).map Symbol.outline := by
  rw [← lookup?_outline, outline_addField, lookup?_outline]

theorem current?_addField (id : String) (field : TypedName) (other : String) :
    (r.addField file id field).current? file other = none ↔ r.current? file other = none := by
  rw [← Option.map_eq_none_iff (f := Symbol.outline), ← current?_outline, outline_addField,
    current?_outline, Option.map_eq_none_iff]

end Registry

namespace Check

variable {base base' : TypeTable} {s s' t t' : Session} {α β : Type}

/-! ### What keeps the resemblance -/

namespace Akin

/-- With one more scope, whether inside of a function or of a block, nothing looks different. -/
theorem opened (h : Akin base base' s t) : Akin base base' (opened s) (opened t) where
  stack := h.stack
  shapes := h.shapes
  count := h.count
  absent id := by
    simp only [Check.opened, Registry.lookup?_openScope]
    exact h.absent id
  present id x := by
    simp only [Check.opened, Registry.lookup?_openScope]
    exact h.present id x
  ordered := h.ordered
  ordered' := h.ordered'
  types := h.types
  types' := h.types'

/-- In the scope of a body the sessions resemble each other. -/
theorem entered (h : Akin base base' s t) (hs : (s.names.table? s.file).isSome)
    (ht : (t.names.table? t.file).isSome) {b b' : Body} (hb : b'.returns = b.returns) :
    Resembles base base' (Check.opened (entered b s)) (Check.opened (Check.entered b' t)) := by
  have hinner : Akin base base' (Check.entered b s) (Check.entered b' t) :=
    ⟨h.stack, h.shapes, h.count, h.absent, h.present, h.ordered, h.ordered', h.types, h.types'⟩
  constructor
  case toAkin => exact hinner.opened
  case inside => rfl
  case returns => exact congrArg some hb
  case depth => exact Registry.depth_openScope_pos hs
  case depth' => exact Registry.depth_openScope_pos ht
  case current => exact fun id _ => Registry.current?_openScope id

end Akin

namespace Resembles

theorem opened (h : Resembles base base' s t) : Resembles base base' (opened s) (opened t) := by
  have hdepth : ∀ {r : Session}, 0 < r.names.depth r.file →
      0 < (r.names.openScope r.file).depth r.file := by
    intro r hr
    obtain ⟨table, _, _, htable, _⟩ := Registry.table?_of_depth hr
    exact Registry.depth_openScope_pos (by rw [htable, Option.isSome_some])
  exact ⟨h.toAkin.opened, h.inside, h.returns, hdepth h.depth, hdepth h.depth',
    fun id _ => Registry.current?_openScope id⟩

/-- A symbol and elements of its name are new in both. -/
theorem named (h : Resembles base base' s t) {types types' : TypeTable} {x y : Symbol}
    (es : List Element) (hid : y.id = x.id) (hlike : x.Like base base' y)
    (he : ∀ e ∈ es, e.id = some x.id) (hx : x.isUdt = false → es ≠ [])
    (hs : s.names.types.Grown types) (ht : t.names.types.Grown types') :
    Resembles base base'
      { s with
        memory := s.memory.grow true es []
        names := Registry.addSymbol s.file x { s.names with types := types } }
      { t with
        memory := t.memory.grow true es []
        names := Registry.addSymbol t.file y { t.names with types := types' } } := by
  have hlookup : ∀ {r : Session} {z : Symbol} {tys : TypeTable}, 0 < r.names.depth r.file → ∀ id,
      (Registry.addSymbol r.file z { r.names with types := tys }).lookup? r.file id =
        if z.id = id then some z else r.names.lookup? r.file id :=
    fun hd id => Registry.lookup?_addSymbol hd _ id
  have hcurrent : ∀ {r : Session} {z : Symbol} {tys : TypeTable}, 0 < r.names.depth r.file → ∀ id,
      (Registry.addSymbol r.file z { r.names with types := tys }).current? r.file id = none ↔
        r.names.current? r.file id = none ∧ z.id ≠ id :=
    fun hd id => Registry.current?_addSymbol hd _ id
  have hdepth : ∀ {r : Session} {z : Symbol} {tys : TypeTable}, 0 < r.names.depth r.file →
      0 < (Registry.addSymbol r.file z { r.names with types := tys }).depth r.file := by
    intro r z tys hd
    rw [Registry.depth_addSymbol]
    exact hd
  have hfind : ∀ (m : Tracker) (id : String), ((m.grow true es []).find? id).map (·.element) =
      (es.find? (·.hasId id)).or ((m.find? id).map (·.element)) := by
    intro m id
    rw [Tracker.find?_element, Tracker.find?_element]
    simp [Tracker.grow, Option.or_assoc]
  constructor
  case toAkin =>
    constructor
    case stack => simp only [Tracker.grow, if_true, h.stack]
    case shapes => exact h.shapes
    case count => exact h.count
    case absent =>
      intro id
      rw [hlookup h.depth, hlookup h.depth', hid]
      split
      · exact fun hn => by cases hn
      · exact h.absent id
    case present =>
      intro id z
      rw [hlookup h.depth, hlookup h.depth', hfind, hfind, hid]
      -- Either the name is the new one, or it means what it meant before.
      split
      · next hxid =>
        rintro ⟨⟩
        refine ⟨y, rfl, hlike, fun hu => ?_⟩
        obtain ⟨e, rest, rfl⟩ := List.exists_cons_of_ne_nil (hx hu)
        have hfirst : e.hasId id = true := by simp [Element.hasId, he e List.mem_cons_self, hxid]
        simp only [List.find?_cons, hfirst, Option.some_or]
      · intro hz
        obtain ⟨w, hw, hl, hf⟩ := h.present id z hz
        exact ⟨w, hw, hl, fun hu => by rw [hf hu]⟩
    case ordered => exact h.ordered
    case ordered' => exact h.ordered'
    case types => exact h.types.trans hs
    case types' => exact h.types'.trans ht
  case inside => exact h.inside
  case returns => exact h.returns
  case depth => exact hdepth h.depth
  case depth' => exact hdepth h.depth'
  case current =>
    intro id
    rw [hcurrent h.depth, hcurrent h.depth', hid]
    exact fun hn => ⟨h.current id hn.1, hn.2⟩

/-- The same value is declared in both. -/
theorem declared (h : Resembles base base' s t) {types types' : TypeTable} {x y : Symbol} {e : Element}
    (hid : y.id = x.id) (hlike : x.Like base base' y) (he : e.id = some x.id)
    (hs : s.names.types.Grown types) (ht : t.names.types.Grown types') :
    Resembles base base' (declared types x e s) (declared types' y e t) := by
  have hnamed := h.named [e] hid hlike (by simpa using he) (fun _ => List.cons_ne_nil _ _) hs ht
  simpa only [Check.declared, h.inside, h.inside'] using hnamed

/-- A type of the same name is declared in both. -/
theorem typed (h : Resembles base base' s t) {x y : Symbol} (hid : y.id = x.id) (hx : x.isUdt = true)
    (hlike : x.Like base base' y) :
    Resembles base base' { s with names := s.names.addSymbol s.file x }
      { t with names := t.names.addSymbol t.file y } := by
  have hnamed := h.named [] hid hlike (by simp) (by simp [hx]) (.refl _) (.refl _)
  simpa only [Tracker.grow_nil] using hnamed

/-- A field is added to types of the same name. -/
theorem addField (h : Resembles base base' s t) (id : String) (field field' : TypedName) :
    Resembles base base' { s with names := s.names.addField s.file id field }
      { t with names := t.names.addField t.file id field' } := by
  have hnone : ∀ {r : Registry} {file : String} (field : TypedName) (other : String),
      (r.addField file id field).lookup? file other = none ↔ r.lookup? file other = none := by
    intro r file field other
    rw [← Option.map_eq_none_iff (f := Symbol.outline), Registry.lookup?_addField,
      Option.map_eq_none_iff]
  constructor
  case toAkin =>
    constructor
    case stack => exact h.stack
    case shapes => exact h.shapes
    case count => exact h.count
    case absent =>
      intro other
      rw [hnone, hnone]
      exact h.absent other
    case present =>
      intro other x₁ hx₁
      have hx := congrArg (Option.map Symbol.outline) hx₁
      rw [Registry.lookup?_addField, Option.map_some] at hx
      obtain ⟨x, hx, hox⟩ := Option.map_eq_some_iff.mp hx
      obtain ⟨y, hy, hlike, hf⟩ := h.present other x hx
      have hy₁ := @Registry.lookup?_addField t.names t.file id field' other
      rw [hy, Option.map_some] at hy₁
      obtain ⟨y₁, hy₁, hoy⟩ := Option.map_eq_some_iff.mp hy₁
      refine ⟨y₁, hy₁, hlike.of_outline hox.symm hoy, fun hu => hf ?_⟩
      rw [← Symbol.isUdt_outline, hox, Symbol.isUdt_outline, hu]
    case ordered => exact h.ordered
    case ordered' => exact h.ordered'
    case types =>
      rw [Registry.types_addField]
      exact h.types
    case types' =>
      rw [Registry.types_addField]
      exact h.types'
  case inside => exact h.inside
  case returns => exact h.returns
  case depth =>
    rw [Registry.depth_addField]
    exact h.depth
  case depth' =>
    rw [Registry.depth_addField]
    exact h.depth'
  case current =>
    intro other
    rw [Registry.current?_addField, Registry.current?_addField]
    exact h.current other

/-- A type becomes active in both. -/
theorem addUdt (h : Resembles base base' s t) (u : Udt) (us us' : List Udt) :
    Resembles base base' { s with memory := s.memory.addUdt u, udts := us }
      { t with memory := t.memory.addUdt u, udts := us' } := by
  have hfind : ∀ (m : Tracker) (id : String), ((m.addUdt u).find? id).map (·.element) =
      (m.find? id).map (·.element) := by
    intro m id
    rw [Tracker.find?_element, Tracker.find?_element]
    rfl
  constructor
  case toAkin =>
    constructor
    case stack => exact h.stack
    case shapes =>
      intro id
      have hshape := h.shapes id
      unfold Tracker.findUdt? at hshape ⊢
      simp only [Tracker.addUdt, List.find?_cons, hshape]
    case count => simp only [Tracker.addUdt, List.length_cons, h.count]
    case absent => exact h.absent
    case present =>
      intro id x
      rw [hfind, hfind]
      exact h.present id x
    case ordered => exact h.ordered
    case ordered' => exact h.ordered'
    case types => exact h.types
    case types' => exact h.types'
  case inside => exact h.inside
  case returns => exact h.returns
  case depth => exact h.depth
  case depth' => exact h.depth'
  case current => exact h.current

end Resembles

/-! ### Small steps -/

theorem carries_requireNew (id : String) (p p' : Position) :
    Carries base base' (requireNew id p) (requireNew id p') fun _ _ => True := by
  refine .of_notes (notes_requireNew id p) (notes_requireNew id p') fun s t h _ s' hrun => ?_
  obtain ⟨_, hc, _⟩ := (requireNew_ends id p).ok hrun
  refine ⟨(), t, requireNew_of_new (h.current id hc) (fun hb => ?_) p', trivial⟩
  simpa [hb] using h.inside'

theorem carries_requireRoom (id : String) (size : Nat) (p p' : Position) :
    Carries base base' (requireRoom id size p) (requireRoom id size p') fun _ _ => True := by
  intro s t h _ s' hrun
  obtain ⟨rfl, hroom⟩ := (requireRoom_ends id size p).ok hrun
  have hused : used t = used s' := by
    rw [used, used, if_pos h.inside, if_pos h.inside', Tracker.stackSize, h.stack, Tracker.stackSize]
  exact ⟨(), t, requireRoom_of_le (hused ▸ hroom) id p', trivial, h⟩

theorem keepsUp_resolve (h : Akin base base' s t) {a a' : Annotation} (ha : a'.bare = a.bare) :
    KeepsUp (resolve a) (resolve a') s t fun r r' s' t' => r = r' ∧ s' = s ∧ t' = t := by
  intro r s' hrun
  obtain ⟨rfl, hr⟩ := (resolve_ends a).ok hrun
  exact ⟨r, t, resolve_of_resolves ((hr.congr ha).mono fun id => h.known), rfl, rfl, rfl⟩

theorem carries_resolve {a a' : Annotation} (ha : a'.bare = a.bare) :
    Carries base base' (resolve a) (resolve a') Eq := by
  intro s t h
  refine (keepsUp_resolve h.toAkin ha).mono ?_
  rintro r _ s' t' ⟨rfl, rfl, rfl⟩
  exact ⟨rfl, h⟩

theorem carries_sizeOf (ty : ValueType) (p p' : Position) :
    Carries base base' (sizeOf ty p) (sizeOf ty p') Eq := by
  intro s t h n s' hrun
  obtain ⟨rfl, hn⟩ := (sizeOf_ends ty p).ok hrun
  exact ⟨n, t, sizeOf_of_size ((h.size ty).trans hn) p', rfl, h⟩

theorem carries_intern (ty : ValueType) (p p' : Position) :
    Carries base base' (intern ty p) (intern ty p') fun _ _ => True := by
  refine .of_notes (notes_intern ty p) (notes_intern ty p') fun s t _ k s' hrun => ?_
  obtain ⟨types, _, hi⟩ := (intern_ends ty p).ok hrun
  obtain ⟨k', types', _, hrun'⟩ := intern_of_defined (s := t) (intern?_defined hi) p'
  exact ⟨k', _, hrun', trivial⟩

/-! ### Types -/

theorem carries_typeName {d d' : TypeDef} (h : d'.bare = d.bare) :
    Carries base base' (typeName d) (typeName d') fun _ _ => True := by
  refine (carries_name (congrArg TypeDef.name h)).bind ?_
  rintro id _ rfl
  refine (carries_requireNew id _ _).bind fun _ _ _ s t hr => KeepsUp.get ?_
  rw [hr.shapes]
  split
  · exact KeepsUp.throw _
  · exact KeepsUp.modify ⟨trivial, hr.typed rfl rfl trivial⟩

theorem carries_typeFields (id : String) (known : List Member) (fs fs' : List Field)
    (h : fs'.map Field.bare = fs.map Field.bare) :
    Carries base base' (typeFields id known fs) (typeFields id known fs') Eq := by
  induction fs generalizing fs' known with
  | nil =>
    rw [List.map_nil, List.map_eq_nil_iff] at h
    rw [h]
    exact .pure rfl
  | cons f fs ih =>
    obtain ⟨f', fs', rfl, hf, hfs⟩ := List.map_eq_cons_iff.mp h
    refine (carries_name (congrArg Field.name hf)).bind ?_
    rintro name _ rfl
    refine .branch (.fail _ _ _) ?_
    refine (carries_resolve (congrArg Field.annotation hf)).bind ?_
    rintro ty _ rfl
    refine (carries_intern ty _ _).bind fun k k' _ => ?_
    refine Carries.bind (R := fun _ _ => True) ?_ fun _ _ _ => ih _ fs' hfs
    exact fun s t hr => KeepsUp.modify ⟨trivial, hr.addField id ⟨name, k⟩ ⟨name, k'⟩⟩

theorem carries_typeBody {d d' : TypeDef} (h : d'.bare = d.bare) :
    Carries base base' (typeBody d) (typeBody d') fun _ _ => True := by
  refine (carries_name (congrArg TypeDef.name h)).bind ?_
  rintro id _ rfl
  refine (carries_typeFields id [] _ _ (congrArg TypeDef.fields h)).bind ?_
  rintro fields _ rfl
  exact fun s t hr => KeepsUp.modify ⟨trivial, hr.addUdt ⟨id, fields⟩ _ _⟩

theorem carries_typeSize {d d' : TypeDef} (h : d'.bare = d.bare) :
    Carries base base' (typeSize d) (typeSize d') fun _ _ => True := by
  refine (carries_name (congrArg TypeDef.name h)).bind ?_
  rintro id _ rfl
  exact (carries_sizeOf (.udt id) _ _).bind fun _ _ _ => .pure trivial

theorem carries_types {ds ds' : List TypeDef} (h : ds'.map TypeDef.bare = ds.map TypeDef.bare) :
    Carries base base' (types ds) (types ds') fun _ _ => True := by
  refine (Carries.forM h fun _ _ => carries_typeName).bind fun _ _ _ => ?_
  refine (Carries.forM h fun _ _ => carries_typeBody).bind fun _ _ _ => ?_
  exact .forM h fun _ _ => carries_typeSize

/-! ### Variables and constants -/

theorem carries_accepts (target ty : ValueType) (p p' : Position) (e e' : SemanticError) :
    Carries base base' (if target.accepts ty then pure () else fail p e)
      (if target.accepts ty then pure () else fail p' e') fun _ _ => True :=
  .branch (.pure trivial) (.fail _ _ _)

theorem carries_literalFor (id : String) (target : ValueType) {e e' : Expr} (h : e'.bare = e.bare) :
    Carries base base' (literalFor id target e) (literalFor id target e') fun _ _ => True := by
  cases e with
  | literal n token =>
    obtain ⟨n', token', rfl, _⟩ := Expr.of_bare_literal h
    refine (carries_expr h).bind ?_
    rintro ty _ rfl
    exact carries_accepts target ty _ _ _ _
  | _ => exact .fail _ _ _

theorem carries_valueFor (target : ValueType) {e e' : Expr} (h : e'.bare = e.bare) :
    Carries base base' (valueFor target e) (valueFor target e') fun _ _ => True := by
  refine (carries_value h).bind ?_
  rintro ty _ rfl
  exact carries_accepts target ty _ _ _ _

/-- Inside of a function the step puts an element on the stack. -/
def Pushes (put : Element → Check Unit) : Prop :=
  ∀ e s, s.body.isSome = true → put e s = .ok () { s with memory := s.memory.push e }

theorem pushes_onMemory : Pushes fun e => onMemory (·.push e) := fun _ _ _ => rfl

theorem Pushes.declared {put : Element → Check Unit} (h : Pushes put) (hb : s.body.isSome = true)
    (x : Symbol) (e : Element) : put e { s with names := s.names.addSymbol s.file x } =
      .ok () (declared s.names.types x e s) := by
  refine (h e { s with names := s.names.addSymbol s.file x } hb).trans ?_
  simp only [Check.declared, hb, Tracker.push_eq_grow]

/-- A value is declared and put on top of both stacks. -/
theorem carries_declareValue {kind : Handle → SymbolKind} (hk : ValueKind kind) (id : String)
    (exported exported' : Bool) (p p' : Position) (ty : ValueType) (size : Nat) (v : Int)
    {put put' : Element → Check Unit} (hput : Pushes put) (hput' : Pushes put') :
    Carries base base'
      (do
        let e ← declareValue id kind exported p ty size v
        put e)
      (do
        let e ← declareValue id kind exported' p' ty size v
        put' e) fun _ _ => True := by
  simp only [declareValue, bind_assoc, pure_bind]
  refine (carries_requireRoom id size p p').bind fun _ _ _ => ?_
  refine (carries_intern ty p p').bind fun k k' _ s t h => ?_
  let e := Element.named id ty.typeId size v
  have hlike : Symbol.Like base base' ⟨id, kind k, exported, p⟩ ⟨id, kind k', exported', p'⟩ := by
    rcases hk with rfl | rfl <;> trivial
  have hdeclared : Resembles base base' (declared s.names.types ⟨id, kind k, exported, p⟩ e s)
      (declared t.names.types ⟨id, kind k', exported', p'⟩ e t) :=
    h.declared rfl hlike rfl (.refl _) (.refl _)
  rintro _ s' hrun
  obtain ⟨_, s₁, hdeclare, hrun⟩ := bind_eq_ok hrun
  cases hdeclare
  cases (hput.declared h.inside _ e).symm.trans hrun
  exact ⟨(), _, hput'.declared h.inside' _ e, trivial, hdeclared⟩

/-- What a declaration of a value does before its initializer is checked. -/
theorem carries_annotated {name name' : Token} (hname : name'.bare = name.bare) {a a' : Annotation}
    (ha : a'.bare = a.bare) {f g : String → ValueType → Nat → Check β} {R : β → β → Prop}
    (h : ∀ id ty n, Carries base base' (f id ty n) (g id ty n) R) :
    Carries base base'
      (do
        let id ← ofExcept (nameOf name)
        requireNew id name.position
        let ty ← resolve a
        let n ← sizeOf ty a.position
        f id ty n)
      (do
        let id ← ofExcept (nameOf name')
        requireNew id name'.position
        let ty ← resolve a'
        let n ← sizeOf ty a'.position
        g id ty n) R := by
  refine (carries_name hname).bind ?_
  rintro id _ rfl
  refine (carries_requireNew id _ _).bind fun _ _ _ => ?_
  refine (carries_resolve ha).bind ?_
  rintro ty _ rfl
  refine (carries_sizeOf ty _ _).bind ?_
  rintro n _ rfl
  exact h id ty n

theorem carries_localVariable {d d' : VariableDecl} (h : d'.bare = d.bare) :
    Carries base base' (localVariable d) (localVariable d') fun _ _ => True := by
  have hvalue : d'.value.map Expr.bare = d.value.map Expr.bare := congrArg VariableDecl.value h
  have hstored : (d'.value.map storedValue).getD 0 = (d.value.map storedValue).getD 0 := by
    have hinteger := congrArg (Option.bind · Expr.integer?) hvalue
    simp only [Option.bind_map, Function.comp_def, Expr.integer?_bare] at hinteger
    rw [map_storedValue, map_storedValue, hinteger]
  refine carries_annotated (congrArg VariableDecl.name h) (congrArg VariableDecl.annotation h)
    fun id ty n => ?_
  refine (Carries.forM_option hvalue fun _ _ => carries_valueFor ty).bind fun _ _ _ => ?_
  rw [hstored]
  exact carries_declareValue (.inl rfl) id _ _ _ _ ty n _ pushes_onMemory pushes_onMemory

theorem carries_constant {d d' : ConstantDecl} (h : d'.bare = d.bare) :
    Carries base base' (constant d) (constant d') fun _ _ => True := by
  have hvalue : d'.value.bare = d.value.bare := congrArg ConstantDecl.value h
  refine carries_annotated (congrArg ConstantDecl.name h) (congrArg ConstantDecl.annotation h)
    fun id ty n => ?_
  refine (carries_literalFor id ty hvalue).bind fun _ _ _ => ?_
  rw [storedValue_eq, storedValue_eq, Expr.integer?_congr hvalue]
  have hpushes : Pushes (fun e => do
      if (← get).body.isSome then onMemory (·.push e) else onMemory (·.insert e)) := by
    intro e s hs
    change (if s.body.isSome then onMemory (·.push e) else onMemory (·.insert e) : Check Unit) s = _
    rw [if_pos hs]
    rfl
  exact carries_declareValue (.inr rfl) id _ _ _ _ ty n _ hpushes hpushes

theorem carries_pushParameter {f f' : Field} (h : f'.bare = f.bare) :
    Carries base base' (pushParameter f) (pushParameter f') fun _ _ => True :=
  carries_annotated (congrArg Field.name h) (congrArg Field.annotation h) fun id ty n =>
    carries_declareValue (.inl rfl) id _ _ _ _ ty n _ pushes_onMemory pushes_onMemory

/-! ### Statements -/

theorem carries_condition {e e' : Expr} (h : e'.bare = e.bare) :
    Carries base base' (condition e) (condition e') fun _ _ => True := by
  refine (carries_value h).bind ?_
  rintro ty _ rfl
  exact .branch (.pure trivial) (.fail _ _ _)

theorem carries_assignment {target target' source source' : Expr} {op op' : Token}
    (ht : target'.bare = target.bare) (hs : source'.bare = source.bare) :
    Carries base base' (assignment target op source) (assignment target' op' source')
      fun _ _ => True := by
  refine (carries_value ht).bind ?_
  rintro ty _ rfl
  have hroot : ∀ root, rootOf target op = .ok root → ∃ root', rootOf target' op' = .ok root' ∧
      root'.bare = root.bare := by
    intro root hroot
    have hbare := Expr.root?_congr ht
    unfold rootOf at hroot ⊢
    cases hr : target.root? with
    | none => simp [hr] at hroot
    | some token =>
      rw [hr] at hbare hroot
      obtain ⟨token', hr', htoken⟩ := Option.map_eq_some_iff.mp hbare
      cases hroot
      exact ⟨token', by rw [hr'], htoken⟩
  refine (carries_ofExcept hroot).bind fun root root' hroot => ?_
  refine (carries_name hroot).bind ?_
  rintro id _ rfl s t h
  refine (keepsUp_lookup? s t id).seq ?_
  rintro _ _ s t ⟨rfl, rfl, rfl, rfl⟩
  have hconstant : isConstant (s.names.lookup? s.file id) = false →
      isConstant (t.names.lookup? t.file id) = false := by
    intro hc
    cases hx : s.names.lookup? s.file id with
    | none =>
      rw [h.absent id hx]
      rfl
    | some x =>
      obtain ⟨y, hy, hlike, _⟩ := h.present id x hx
      rw [hy, hlike.isConstant, ← hx, hc]
  cases hc : isConstant (s.names.lookup? s.file id) with
  | true => exact KeepsUp.throw _
  | false =>
    simp only [hconstant hc, Bool.false_eq_true, if_false]
    refine Carries.bind (carries_value hs) ?_ s t h
    rintro v _ rfl
    exact carries_accepts ty v _ _ _ _

theorem carries_ret {token token' : Token} {result result' : Option Expr}
    (h : result'.map Expr.bare = result.map Expr.bare) :
    Carries base base' (ret token result) (ret token' result') fun _ _ => True := by
  intro s t hr
  refine KeepsUp.get ?_
  have hreturns := hr.returns
  cases hb : s.body with
  | none => simpa [hb] using hr.inside
  | some b =>
    rw [hb, Option.map_some] at hreturns
    obtain ⟨b', hb', hsame⟩ := Option.map_eq_some_iff.mp hreturns
    rw [hb']
    dsimp only
    rw [hsame]
    cases b.returns with
    | none =>
      cases result with
      | none =>
        rw [Option.map_none, Option.map_eq_none_iff] at h
        rw [h]
        exact KeepsUp.pure ⟨trivial, hr⟩
      | some e => exact KeepsUp.throw _
    | some expected =>
      cases result with
      | none => exact KeepsUp.throw _
      | some e =>
        obtain ⟨e', rfl, he⟩ := Option.map_eq_some_iff.mp h
        refine Carries.bind (carries_value he) ?_ s t hr
        rintro found _ rfl
        exact carries_accepts expected found _ _ _ _

/-- A block restores what both sessions were before it. -/
theorem carries_block {body body' : List Stmt}
    (h : Carries base base' (stmts body) (stmts body') fun _ _ => True) (o c o' c' : Position) :
    Carries base base' (block ⟨o, c, body⟩) (block ⟨o', c', body'⟩) fun _ _ => True := by
  intro s t hr _ s' hrun
  have hs := (block_ends _ hr.inside).ok hrun
  rw [block] at hrun ⊢
  obtain ⟨_, s₁, hopen, hrun⟩ := bind_eq_ok hrun
  cases hopen
  obtain ⟨_, s₂, hbody, _⟩ := bind_eq_ok hrun
  obtain ⟨_, t₂, hbody', _⟩ := h (opened s) (opened t) hr.opened () s₂ hbody
  obtain ⟨t', hrun'⟩ : ∃ t', block ⟨o', c', body'⟩ t = .ok () t' := by
    rw [block]
    exact ⟨_, (bind_of_ok rfl).trans ((bind_of_ok hbody').trans rfl)⟩
  have ht := (block_ends _ hr.inside').ok hrun'
  rw [block] at hrun'
  exact ⟨(), t', hrun', trivial, hr.grown hs ht⟩

mutual

theorem carries_stmt : ∀ st st' : Stmt, st'.bare = st.bare →
    Carries base base' (stmt st) (stmt st') fun _ _ => True
  | .varDecl d, st', h => by
    obtain ⟨d', rfl, hd⟩ := Stmt.of_bare_varDecl h
    rw [stmt, stmt]
    exact carries_localVariable hd
  | .constDecl d, st', h => by
    obtain ⟨d', rfl, hd⟩ := Stmt.of_bare_constDecl h
    rw [stmt, stmt]
    exact carries_constant hd
  | .typeDef d, st', h => by
    obtain ⟨d', rfl, hd⟩ := Stmt.of_bare_typeDef h
    rw [stmt, stmt]
    exact carries_types (by simp [hd])
  | .assign target op source, st', h => by
    obtain ⟨target', op', source', rfl, ht, _, hs⟩ := Stmt.of_bare_assign h
    rw [stmt, stmt]
    exact carries_assignment ht hs
  | .expr e, st', h => by
    obtain ⟨e', rfl, he⟩ := Stmt.of_bare_expr h
    rw [stmt, stmt]
    exact (carries_expr he).bind fun _ _ _ => .pure trivial
  | .branch _ c thenBlock none, st', h => by
    obtain ⟨_, c', thenBlock', rfl, hc, hthen⟩ := Stmt.of_bare_branch h
    rw [stmt, stmt]
    refine (carries_condition hc).bind fun _ _ _ => ?_
    exact carries_blocks thenBlock thenBlock' hthen
  | .branch _ c thenBlock (some elseBlock), st', h => by
    obtain ⟨_, c', thenBlock', elseBlock', rfl, hc, hthen, helse⟩ := Stmt.of_bare_branchElse h
    rw [stmt, stmt]
    refine (carries_condition hc).bind fun _ _ _ => ?_
    refine (carries_blocks thenBlock thenBlock' hthen).bind fun _ _ _ => ?_
    exact carries_blocks elseBlock elseBlock' helse
  | .loop _ c body, st', h => by
    obtain ⟨_, c', body', rfl, hc, hbody⟩ := Stmt.of_bare_loop h
    rw [stmt, stmt]
    exact (carries_condition hc).bind fun _ _ _ => carries_blocks body body' hbody
  | .ret token result, st', h => by
    obtain ⟨token', result', rfl, hresult⟩ := Stmt.of_bare_ret h
    rw [stmt, stmt]
    exact carries_ret hresult
  | .block b, st', h => by
    obtain ⟨b', rfl, hb⟩ := Stmt.of_bare_block h
    rw [stmt, stmt]
    exact carries_blocks b b' hb

theorem carries_blocks : ∀ b b' : Block, b'.bare = b.bare →
    Carries base base' (block b) (block b') fun _ _ => True
  | ⟨o, c, body⟩, ⟨o', c', body'⟩, h => by
    refine carries_block (carries_stmts body body' ?_) o c o' c'
    simpa [Block.bare] using h

theorem carries_stmts : ∀ body body' : List Stmt, Stmt.bareAll body' = Stmt.bareAll body →
    Carries base base' (stmts body) (stmts body') fun _ _ => True
  | [], body', h => by
    obtain rfl : body' = [] := by
      cases body' with
      | nil => rfl
      | cons => simp [Stmt.bareAll] at h
    exact .pure trivial
  | st :: rest, body', h => by
    cases body' with
    | nil => simp [Stmt.bareAll] at h
    | cons st' rest' =>
      simp only [Stmt.bareAll, List.cons.injEq] at h
      rw [stmts, stmts]
      refine (carries_stmt st st' h.1).bind fun _ _ _ => ?_
      exact carries_stmts rest rest' h.2

end

/-! ### Functions -/

theorem keepsUp_returns (h : Akin base base' s t) {a a' : Option Annotation}
    (ha : a'.map Annotation.bare = a.map Annotation.bare) :
    KeepsUp (a.mapM resolve) (a'.mapM resolve) s t fun r r' s' t' => r = r' ∧ s' = s ∧ t' = t := by
  cases a with
  | none =>
    rw [Option.map_none, Option.map_eq_none_iff] at ha
    rw [ha]
    exact KeepsUp.pure ⟨rfl, rfl, rfl⟩
  | some a =>
    obtain ⟨a', rfl, hbare⟩ := Option.map_eq_some_iff.mp ha
    refine (keepsUp_resolve h hbare).seq ?_
    rintro ty _ _ _ ⟨rfl, rfl, rfl⟩
    exact KeepsUp.pure ⟨rfl, rfl, rfl⟩

/-- With their parameters declared the sessions resemble each other. -/
theorem keepsUp_entering (h : Akin base base' s t) (hs : (s.names.table? s.file).isSome)
    (ht : (t.names.table? t.file).isSome) {d d' : FunctionDef} (hd : d'.bare = d.bare) :
    KeepsUp (entering d d.params) (entering d' d'.params) s t fun r r' s' t' =>
      r = r' ∧ Resembles base base' s' t' := by
  have hname : KeepsUp (ofExcept (nameOf d.name)) (ofExcept (nameOf d'.name)) s t
      fun id id' s' t' => id = id' ∧ s' = s ∧ t' = t := by
    intro id s' hrun
    obtain ⟨rfl, hid⟩ := (ofExcept_ends _).ok hrun
    rw [Token.nameOf_congr (congrArg FunctionDef.name hd) hid]
    exact ⟨id, t, rfl, rfl, rfl, rfl⟩
  refine hname.seq ?_
  rintro id _ s t ⟨rfl, rfl, rfl⟩
  refine (keepsUp_returns h (congrArg FunctionDef.returns hd)).seq ?_
  rintro returns _ s t ⟨rfl, rfl, rfl⟩
  have hopen : KeepsUp openScope openScope (entered ⟨id, returns, []⟩ s)
      (entered ⟨id, returns, []⟩ t) fun _ _ s' t' => Resembles base base' s' t' := by
    rintro _ _ ⟨⟩
    exact ⟨(), _, rfl, h.entered hs ht rfl⟩
  have hparams : Carries base base'
      (do
        d.params.forM pushParameter
        return (id, returns))
      (do
        d'.params.forM pushParameter
        return (id, returns)) Eq :=
    (Carries.forM (congrArg FunctionDef.params hd) fun _ _ => carries_pushParameter).bind
      fun _ _ _ => .pure rfl
  refine KeepsUp.modify_seq ?_
  exact hopen.seq fun _ _ s' t' hr => hparams s' t' hr

theorem keepsUp_leaving {d d' : FunctionDef} (h : d'.body.bare = d.body.bare)
    (r : String × Option ValueType) :
    KeepsUp (leaving d r) (leaving d' r) s t fun _ _ _ _ => True := by
  unfold leaving
  rw [Block.alwaysReturns_congr h]
  split
  · exact KeepsUp.throw _
  · rintro _ _ ⟨⟩
    exact ⟨(), _, rfl, trivial⟩

/-- A body that is right in one session is right in every spelling in all that look the same. -/
theorem functionBody_of_akin (h : Akin base base' s t) (hs : (s.names.table? s.file).isSome)
    (ht : (t.names.table? t.file).isSome) {d d' : FunctionDef} (hd : d'.bare = d.bare)
    (hrun : functionBody d s = .ok () s') : ∃ t', functionBody d' t = .ok () t' := by
  have hbody : d'.body.bare = d.body.bare := congrArg FunctionDef.body hd
  have hstmts : Stmt.bareAll d'.body.body = Stmt.bareAll d.body.body := by
    rw [← Block.body_bare, hbody, Block.body_bare]
  have hkeeps : KeepsUp (functionBody d) (functionBody d') s t fun _ _ _ _ => True := by
    rw [functionBody_eq, functionBody_eq]
    refine (keepsUp_entering h hs ht hd).seq ?_
    rintro r _ s t ⟨rfl, hr⟩
    exact (carries_stmts _ _ hstmts s t hr).seq fun _ _ _ _ _ => keepsUp_leaving hbody r
  obtain ⟨_, t', hrun', _⟩ := hkeeps () s' hrun
  exact ⟨t', hrun'⟩

end Check

end StoragePlan
