import StoragePlan.Proofs.Outlines
import StoragePlan.Proofs.Redeclarations
import StoragePlan.Proofs.Requirements

/-!
When declarations are right. The check of a file goes through its declarations one after the other, and
each of them changes what the next one meets; but all it changes is that one name more is taken and some
bytes more are used. So declarations are right together if each of them is right by itself, no two have
one name, and there is room for all; nothing of this depends on their order.
-/

namespace StoragePlan

/-! ### Success -/

section Passes

variable {ε σ α β : Type}

/-- The step succeeds. -/
def Passes (x : EStateM ε σ α) (s : σ) : Prop := ∃ a s', x s = .ok a s'

theorem passes_bind {x : EStateM ε σ α} {f : α → EStateM ε σ β} {s : σ} :
    Passes (x >>= f) s ↔ ∃ a s', x s = .ok a s' ∧ Passes (f a) s' := by
  constructor
  · rintro ⟨b, s'', hrun⟩
    obtain ⟨a, s', hx, hf⟩ := bind_eq_ok hrun
    exact ⟨a, s', hx, b, s'', hf⟩
  · rintro ⟨a, s', hx, b, s'', hf⟩
    exact ⟨b, s'', (bind_of_ok hx).trans hf⟩

theorem passes_pure (a : α) (s : σ) : Passes (Pure.pure a : EStateM ε σ α) s := ⟨a, s, rfl⟩

theorem not_passes_throw (e : ε) (s : σ) : ¬ Passes (MonadExcept.throw e : EStateM ε σ α) s := by
  rintro ⟨_, _, ⟨⟩⟩

/-- Steps in turn, each of which uses up some of what there is and may stand in the way of others. If
`C c` says when a step is right by itself, the steps are right in turn if each is right by itself, no
two are in the way of each other, and there is enough for all of them. -/
theorem passes_forM_iff {γ : Type} {step : γ → EStateM ε σ PUnit} (I : σ → Prop) (C : γ → σ → Prop)
    (apart : γ → γ → Prop) (used : σ → Nat) (need : γ → Nat) (limit : Nat) {cs : List γ}
    (hpass : ∀ c ∈ cs, ∀ s, I s → (Passes (step c) s ↔ C c s ∧ used s + need c ≤ limit))
    (hstep : ∀ c ∈ cs, ∀ s s', I s → step c s = .ok ⟨⟩ s' → I s' ∧ used s' = used s + need c ∧
      ∀ c' ∈ cs, C c' s' ↔ C c' s ∧ apart c c') {s : σ} (hI : I s) (hu : used s ≤ limit) :
    Passes (cs.forM step) s ↔
      (∀ c ∈ cs, C c s) ∧ cs.Pairwise apart ∧ used s + (cs.map need).sum ≤ limit := by
  induction cs generalizing s with
  | nil => simpa using ⟨fun _ => hu, fun _ => passes_pure _ s⟩
  | cons c cs ih =>
    rw [List.forall_mem_cons] at hpass hstep
    -- After the first step the others are asked what they were asked before it, and to be apart from it.
    have hrest : ∀ {s'}, step c s = .ok ⟨⟩ s' → (Passes (cs.forM step) s' ↔
        (∀ c' ∈ cs, C c' s ∧ apart c c') ∧ cs.Pairwise apart ∧
          used s + need c + (cs.map need).sum ≤ limit) := by
      intro s' hrun
      obtain ⟨hI', hu', hC⟩ := hstep.1 s s' hI hrun
      have hroom : used s' ≤ limit := hu' ▸ ((hpass.1 s hI).mp ⟨_, _, hrun⟩).2
      have hiff := ih hpass.2 (fun d hd r r' hr hrun' => by
        obtain ⟨h₁, h₂, h₃⟩ := hstep.2 d hd r r' hr hrun'
        exact ⟨h₁, h₂, fun c' hc' => h₃ c' (List.mem_cons_of_mem _ hc')⟩) hI' hroom
      rw [hiff, hu']
      refine and_congr_left fun _ => forall₂_congr fun c' hc' => hC c' (List.mem_cons_of_mem _ hc')
    have hcons : (c :: cs).forM step = (step c >>= fun _ => cs.forM step) := rfl
    rw [hcons, passes_bind, List.forall_mem_cons, List.pairwise_cons, List.map_cons,
      List.sum_cons]
    constructor
    · rintro ⟨_, s', hrun, hpasses⟩
      obtain ⟨hall, hpairs, hroom⟩ := (hrest hrun).mp hpasses
      exact ⟨⟨((hpass.1 s hI).mp ⟨_, _, hrun⟩).1, fun c' hc' => (hall c' hc').1⟩,
        ⟨fun c' hc' => (hall c' hc').2, hpairs⟩, by omega⟩
    · rintro ⟨⟨hc, hall⟩, ⟨hapart, hpairs⟩, hroom⟩
      obtain ⟨_, s', hrun⟩ := (hpass.1 s hI).mpr ⟨hc, by omega⟩
      exact ⟨_, s', hrun, (hrest hrun).mpr
        ⟨fun c' hc' => ⟨hall c' hc', hapart c' hc'⟩, hpairs, by omega⟩⟩

/-- Steps in turn that use nothing up. -/
theorem passes_forM_iff_pairwise {γ : Type} {step : γ → EStateM ε σ PUnit} (I : σ → Prop)
    (C : γ → σ → Prop) (apart : γ → γ → Prop) {cs : List γ}
    (hpass : ∀ c ∈ cs, ∀ s, I s → (Passes (step c) s ↔ C c s))
    (hstep : ∀ c ∈ cs, ∀ s s', I s → step c s = .ok ⟨⟩ s' → I s' ∧
      ∀ c' ∈ cs, C c' s' ↔ C c' s ∧ apart c c') {s : σ} (hI : I s) :
    Passes (cs.forM step) s ↔ (∀ c ∈ cs, C c s) ∧ cs.Pairwise apart := by
  have hiff := passes_forM_iff I C apart (fun _ => 0) (fun _ => 0) 0
    (fun c hc s hs => by simp [hpass c hc s hs])
    (fun c hc s s' hs hrun => ⟨(hstep c hc s s' hs hrun).1, rfl, (hstep c hc s s' hs hrun).2⟩) hI
    (Nat.le_refl 0)
  have hsum : (cs.map fun _ => 0).sum = 0 := by
    rw [List.map_const', List.sum_replicate_nat, Nat.mul_zero]
  simpa only [hsum, Nat.add_zero, Nat.le_refl, and_true] using hiff

/-- Steps in turn, none of which stands in the way of another. -/
theorem passes_forM_iff_forall {γ : Type} {step : γ → EStateM ε σ PUnit} (C : γ → σ → Prop)
    {cs : List γ} (hpass : ∀ c ∈ cs, ∀ s, Passes (step c) s ↔ C c s)
    (hstep : ∀ c ∈ cs, ∀ s s', step c s = .ok ⟨⟩ s' → ∀ c' ∈ cs, C c' s' ↔ C c' s) {s : σ} :
    Passes (cs.forM step) s ↔ ∀ c ∈ cs, C c s := by
  have hiff : Passes (cs.forM step) s ↔ (∀ c ∈ cs, C c s) ∧ cs.Pairwise fun _ _ => True :=
    passes_forM_iff_pairwise (fun _ => True) C _ (fun c hc s _ => hpass c hc s)
      (fun c hc s s' _ hrun => ⟨trivial, fun c' hc' => by
        rw [hstep c hc s s' hrun c' hc', and_true]⟩) trivial
  rw [hiff]
  exact and_iff_left (List.pairwise_iff_forall_sublist.mpr fun _ => trivial)

end Passes

/-! ### Names at the top level -/

namespace Registry

variable {r : Registry} {file id : String} {ss : List Symbol}

theorem exported?_grow_of_ne (h : ∀ x ∈ ss, x.id ≠ id) (other : String) :
    (r.onTable file (·.grow ss)).exported? id other = r.exported? id other := by
  unfold exported?
  by_cases ho : other = file
  · rw [ho, table?_onTable fun t => t.file_grow ss]
    cases r.table? file with
    | none => rfl
    | some t =>
      simp only [Option.map_some, Option.bind_some, SymbolTable.exported?, SymbolTable.grow]
      split
      · rfl
      · have hnone : ss.reverse.find? (fun s => s.exported && s.id == id) = none :=
          List.find?_eq_none.mpr fun x hx => by simp [h x (List.mem_reverse.mp hx)]
        rw [List.find?_append, hnone, Option.or_none]
  · rw [table?_onTable_of_ne (fun t => t.file_grow ss) ho]

/-- New symbols of other names do not change what a name means. -/
theorem lookup?_grow_of_ne (h : ∀ x ∈ ss, x.id ≠ id) :
    (r.onTable file (·.grow ss)).lookup? file id = r.lookup? file id := by
  have hexported : (r.onTable file (·.grow ss)).exported? id = r.exported? id :=
    funext (exported?_grow_of_ne h)
  have hlocal : ∀ t : SymbolTable, (t.grow ss).local? id = t.local? id := by
    intro t
    have hnone : ss.find? (·.id == id) = none :=
      List.find?_eq_none.mpr fun x hx => by simpa using h x hx
    have hnone' : ss.reverse.find? (·.id == id) = none :=
      List.find?_eq_none.mpr fun x hx => by simpa using h x (List.mem_reverse.mp hx)
    unfold SymbolTable.local? SymbolTable.visible SymbolTable.grow
    split
    · next hs => simp [hs, hnone]
    · next hs => simp [hs, hnone']
  unfold lookup?
  rw [hexported, table?_onTable fun t => t.file_grow ss]
  cases r.table? file with
  | none => rfl
  | some t => simp only [Option.map_some, hlocal, SymbolTable.outer_grow]

/-- A name that is new to the top level means one of the new symbols. -/
theorem lookup?_grow_of_mem {t : SymbolTable} (ht : r.table? file = some t) (hs : t.scopes = [])
    (hc : r.current? file id = none) {x : Symbol} (hx : x ∈ ss) (hid : x.id = id) :
    ∃ y ∈ ss, y.id = id ∧ (r.onTable file (·.grow ss)).lookup? file id = some y := by
  have hnew : t.symbols.find? (·.id == id) = none := by
    simpa [current?, ht, SymbolTable.current?, hs] using hc
  have hlocal : (t.grow ss).local? id = ss.reverse.find? (·.id == id) := by
    simp [SymbolTable.local?, SymbolTable.visible, SymbolTable.grow, hs, hnew]
  have hsome : (ss.reverse.find? (·.id == id)).isSome := by
    rw [List.find?_isSome]
    exact ⟨x, List.mem_reverse.mpr hx, by simp [hid]⟩
  obtain ⟨y, hy⟩ := Option.isSome_iff_exists.mp hsome
  refine ⟨y, List.mem_reverse.mp (List.mem_of_find?_eq_some hy), by simpa using List.find?_some hy, ?_⟩
  rw [lookup?, table?_onTable fun t => t.file_grow ss, ht, Option.map_some]
  simp only [hlocal, hy]

end Registry

namespace Check

variable {s s' : Session} {α β : Type}

/-- The session is outside of functions, at the top level of its file. -/
structure AtTop (s : Session) : Prop where
  body : s.body = none
  table : ∃ t, s.names.table? s.file = some t ∧ t.scopes = []

/-- The name can be declared: the current scope does not have it and, outside of functions, storage does
not have it either. -/
def New (s : Session) (id : String) : Prop :=
  s.names.current? s.file id = none ∧ (s.body = none → s.memory.find? id = none)

theorem AtTop.grown {bs : List Binding} (h : AtTop s) (hg : Grown bs s s') : AtTop s' where
  body := by
    obtain ⟨ps, hb⟩ := hg.body
    rw [hb, h.body, Option.map_none]
  table := by
    obtain ⟨t, ht, hs⟩ := h.table
    refine ⟨t.gain bs, by rw [hg.table?, ht, Option.map_some], ?_⟩
    simp [SymbolTable.gain, SymbolTable.grow, hs]

theorem AtTop.midway {ss : List Symbol} {us : List Udt} (h : AtTop s) (hm : Midway ss us s s') :
    AtTop s' where
  body := hm.body.trans h.body
  table := by
    obtain ⟨t, ht, hs⟩ := h.table
    refine ⟨t.grow ss, ?_, by simp [SymbolTable.grow, hs]⟩
    rw [hm.file, Registry.table?_congr hm.tables, Registry.table?_onTable fun t => t.file_grow ss, ht,
      Option.map_some]

/-- The names of new symbols can no longer be declared. -/
theorem new_grow_iff {ss : List Symbol} {es : List Element} {us : List Udt} (h : AtTop s)
    (hf : s'.file = s.file) (hb : s'.body = none) (hm : s'.memory = s.memory.grow false es us)
    (ht : s'.names.tables = (s.names.onTable s.file (·.grow ss)).tables)
    (hes : ∀ e ∈ es, ∃ x ∈ ss, e.id = some x.id) (id : String) :
    New s' id ↔ New s id ∧ ∀ x ∈ ss, x.id ≠ id := by
  obtain ⟨t, htable, _⟩ := h.table
  have hcurrent : s'.names.current? s'.file id = none ↔
      s.names.current? s.file id = none ∧ ∀ x ∈ ss, x.id ≠ id := by
    unfold Registry.current?
    rw [hf, Registry.table?_congr ht, Registry.table?_onTable (fun t => t.file_grow ss), htable,
      Option.map_some, Option.bind_some, Option.bind_some, SymbolTable.current?_grow]
  have hfind : (∀ x ∈ ss, x.id ≠ id) → (s'.memory.find? id = none ↔ s.memory.find? id = none) := by
    intro hne
    have hnone : es.reverse.find? (·.hasId id) = none := by
      rw [List.find?_eq_none]
      intro e he
      obtain ⟨x, hx, hid⟩ := hes e (List.mem_reverse.mp he)
      simpa [Element.hasId, hid] using hne x hx
    have hiff : ∀ m : Tracker, m.find? id = none ↔
        (m.stack.find? (·.hasId id)).or (m.dataSegment.find? (·.hasId id)) = none := fun m => by
      rw [← Tracker.find?_element, Option.map_eq_none_iff]
    rw [hiff, hiff, hm]
    simp [Tracker.grow, hnone]
  unfold New
  rw [hcurrent, hb, h.body]
  constructor
  · rintro ⟨⟨hc, hne⟩, hn⟩
    exact ⟨⟨hc, fun _ => (hfind hne).mp (hn rfl)⟩, hne⟩
  · rintro ⟨⟨hc, hn⟩, hne⟩
    exact ⟨⟨hc, hne⟩, fun _ => (hfind hne).mpr (hn rfl)⟩

/-- After the declaration of types these and the ones known before are known. -/
theorem known_grow_iff {ss : List Symbol} (h : AtTop s) (hss : ∀ x ∈ ss, x.isUdt = true)
    (hnew : ∀ x ∈ ss, s.names.current? s.file x.id = none) (id : String) :
    Known (s.names.onTable s.file (·.grow ss)) s.file id ↔
      id ∈ ss.map (·.id) ∨ Known s.names s.file id := by
  refine ⟨Known.of_grow, fun hk => ?_⟩
  obtain ⟨t, ht, hs⟩ := h.table
  by_cases hmem : id ∈ ss.map (·.id)
  · obtain ⟨x, hx, rfl⟩ := List.mem_map.mp hmem
    obtain ⟨y, hy, _, hlookup⟩ := Registry.lookup?_grow_of_mem ht hs (hnew x hx) hx rfl
    exact ⟨y, hlookup, hss y hy⟩
  · obtain ⟨x, hx, hu⟩ := hk.resolve_left hmem
    refine ⟨x, ?_, hu⟩
    rw [Registry.lookup?_grow_of_ne fun y hy hid => hmem (List.mem_map.mpr ⟨y, hy, hid⟩)]
    exact hx

/-! ### Small steps -/

theorem not_passes_fail (p : Position) (e : SemanticError) : ¬ Passes (fail p e : Check α) s :=
  not_passes_throw _ s

theorem passes_ite {c : Prop} [Decidable c] {x : Check α} (p : Position) (e : SemanticError) :
    Passes (if c then x else fail p e) s ↔ c ∧ Passes x s := by
  by_cases hc : c
  · simp [hc]
  · simp [hc, not_passes_fail]

/-- A step that looks at the session and changes nothing, before another one. -/
theorem passes_bind_of_ends {x : Check α} {f : α → Check β} {P : α → Prop}
    {failed : SemanticFault → Session → Prop} (hx : Ends x s (fun a s' => s' = s ∧ P a) failed)
    (hp : ∀ a, P a → x s = .ok a s) : Passes (x >>= f) s ↔ ∃ a, P a ∧ Passes (f a) s := by
  rw [passes_bind]
  constructor
  · rintro ⟨a, s', hrun, hf⟩
    obtain ⟨rfl, ha⟩ := hx.ok hrun
    exact ⟨a, ha, hf⟩
  · rintro ⟨a, ha, hf⟩
    exact ⟨a, s, hp a ha, hf⟩

theorem passes_ofExcept_bind {x : Except SemanticFault α} {f : α → Check β} :
    Passes (ofExcept x >>= f) s ↔ ∃ a, x = .ok a ∧ Passes (f a) s :=
  passes_bind_of_ends (ofExcept_ends x) fun a ha => by rw [ha]; rfl

theorem passes_requireNew_bind {id : String} {p : Position} {f : Unit → Check β} :
    Passes (requireNew id p >>= f) s ↔ New s id ∧ Passes (f ()) s := by
  rw [passes_bind_of_ends (P := fun _ => New s id)
    ((requireNew_ends id p).mono (fun _ _ h => h) fun _ _ h => h)
    fun _ h => requireNew_of_new h.1 h.2 p]
  exact ⟨fun ⟨_, hn, hf⟩ => ⟨hn, hf⟩, fun ⟨hn, hf⟩ => ⟨(), hn, hf⟩⟩

/-- The annotation stands for a type. -/
def Right (known : String → Prop) (a : Annotation) : Prop := Resolves known a a.type

theorem passes_resolve_bind {a : Annotation} {f : ValueType → Check β} :
    Passes (resolve a >>= f) s ↔ Right (Known s.names s.file) a ∧ Passes (f a.type) s := by
  rw [passes_bind_of_ends (resolve_ends a) fun _ h => resolve_of_resolves h]
  constructor
  · rintro ⟨ty, hr, hf⟩
    obtain rfl := hr.type
    exact ⟨hr, hf⟩
  · rintro ⟨hr, hf⟩
    exact ⟨_, hr, hf⟩

theorem passes_sizeOf_bind {ty : ValueType} {p : Position} {f : Nat → Check β} :
    Passes (sizeOf ty p >>= f) s ↔ ∃ n, ty.size s.memory = .ok n ∧ Passes (f n) s :=
  passes_bind_of_ends (sizeOf_ends ty p) fun _ h => sizeOf_of_size h p

theorem Right.defined {known : String → Prop} {a : Annotation} (h : Right known a) :
    a.type.Defined := by
  obtain ⟨_, _, hi, _⟩ := intern_of_resolves (s := ⟨"", .empty, .empty, none, [], [], []⟩) h .start
  exact intern?_defined hi

/-- A handle is given to every type; what comes after it is right in any table of types. -/
theorem passes_intern_bind {ty : ValueType} (hty : ty.Defined) {p : Position} {f : Handle → Check β}
    {P : Prop} (h : ∀ k types, s.names.types.Grown types → (Passes (f k) (withTypes s types) ↔ P)) :
    Passes (intern ty p >>= f) s ↔ P := by
  obtain ⟨k, types, hi, hrun⟩ := intern_of_defined (s := s) hty p
  have hg := (TypeTable.intern?_grown hi).1
  rw [passes_bind]
  constructor
  · rintro ⟨k', s', hrun', hf⟩
    cases hrun.symm.trans hrun'
    exact (h k types hg).mp hf
  · exact fun hp => ⟨k, _, hrun, (h k types hg).mpr hp⟩

theorem passes_intern_bind_total {ty : ValueType} (hty : ty.Defined) {p : Position}
    {f : Handle → Check β} (hf : ∀ k s, Passes (f k) s) : Passes (intern ty p >>= f) s :=
  (passes_intern_bind (P := True) hty fun _ _ _ => iff_true_intro (hf _ _)).mpr trivial

/-! ### Types -/

/-- The token is a name. -/
def IsName (t : Token) : Prop := ∃ id, nameOf t = .ok id

/-- The name of a type can be declared. -/
def TypeNamed (d : TypeDef) (s : Session) : Prop :=
  ∃ id, nameOf d.name = .ok id ∧ New s id ∧ s.memory.findUdt? id = none

theorem passes_typeName {d : TypeDef} : Passes (typeName d) s ↔ TypeNamed d s := by
  unfold typeName TypeNamed
  rw [passes_ofExcept_bind]
  refine exists_congr fun id => and_congr_right fun _ => ?_
  rw [passes_requireNew_bind]
  refine and_congr_right fun _ => ?_
  change Passes (if (s.memory.findUdt? id).isSome then fail d.name.position (.nameInUse id) else _) s ↔ _
  cases hf : s.memory.findUdt? id with
  | some u => simp [not_passes_fail]
  | none => exact ⟨fun _ => rfl, fun _ => ⟨(), _, rfl⟩⟩

/-- Definitions of different names. -/
def NamedApart (d d' : TypeDef) : Prop := d.name.name? ≠ d'.name.name?

theorem passes_typeNames {ds : List TypeDef} (h : AtTop s) :
    Passes (ds.forM typeName) s ↔ (∀ d ∈ ds, TypeNamed d s) ∧ ds.Pairwise NamedApart := by
  refine passes_forM_iff_pairwise AtTop TypeNamed NamedApart (fun d _ s _ => passes_typeName)
    (fun d _ s s' hs hrun => ?_) h
  obtain ⟨hid, hm⟩ := (typeName_ends d (.refl s)).ok hrun
  have hmemory : s'.memory = s.memory.grow false [] [] := by
    rw [hm.memory, Tracker.grow_nil, Tracker.grow_nil]
  refine ⟨hs.midway hm, fun d' _ => ?_⟩
  unfold TypeNamed NamedApart
  rw [nameOf_eq_ok hid]
  constructor
  · rintro ⟨id, hid', hn, hu⟩
    rw [new_grow_iff hs hm.file (hs.midway hm).body hmemory hm.tables (by simp)] at hn
    rw [hmemory, Tracker.grow_nil] at hu
    refine ⟨⟨id, hid', hn.1, hu⟩, ?_⟩
    rw [nameOf_eq_ok hid']
    simpa using hn.2
  · rintro ⟨⟨id, hid', hn, hu⟩, hne⟩
    rw [nameOf_eq_ok hid'] at hne
    refine ⟨id, hid', ?_, by rwa [hmemory, Tracker.grow_nil]⟩
    rw [new_grow_iff hs hm.file (hs.midway hm).body hmemory hm.tables (by simp)]
    exact ⟨hn, by simpa using hne⟩

/-! ### Fields and sizes -/

/-- The name of a field and the type that it has. -/
def FieldRight (known : String → Prop) (f : Field) : Prop := IsName f.name ∧ Right known f.annotation

/-- The steps of a declaration that keep what names mean. -/
def SameNames (s s' : Session) : Prop :=
  s'.file = s.file ∧ s'.body = s.body ∧ s'.names.outline = s.names.outline

theorem SameNames.refl (s : Session) : SameNames s s := ⟨rfl, rfl, rfl⟩

theorem SameNames.trans {s'' : Session} (h : SameNames s s') (h' : SameNames s' s'') :
    SameNames s s'' :=
  ⟨h'.1.trans h.1, h'.2.1.trans h.2.1, h'.2.2.trans h.2.2⟩

theorem SameNames.withTypes (s : Session) (types : TypeTable) : SameNames s (withTypes s types) :=
  ⟨rfl, rfl, rfl⟩

theorem SameNames.addField (s : Session) (id : String) (field : TypedName) :
    SameNames s { s with names := s.names.addField s.file id field } :=
  ⟨rfl, rfl, Registry.outline_addField _ _ _ _⟩

theorem SameNames.known (h : SameNames s s') : Known s'.names s'.file = Known s.names s.file := by
  have hknown : ∀ (r : Registry) (file id : String), Known r file id ↔
      ∃ x, r.outline.lookup? file id = some x ∧ x.isUdt = true := by
    intro r file id
    rw [Registry.lookup?_outline]
    constructor
    · rintro ⟨x, hx, hu⟩
      exact ⟨x.outline, by rw [hx, Option.map_some], by rw [Symbol.isUdt_outline, hu]⟩
    · rintro ⟨_, hx, hu⟩
      obtain ⟨x, hx', rfl⟩ := Option.map_eq_some_iff.mp hx
      exact ⟨x, hx', by rwa [Symbol.isUdt_outline] at hu⟩
  funext id
  rw [h.1, eq_iff_iff, hknown, hknown, h.2.2]

theorem typeFields_sameNames (id : String) (known : List Member) (fs : List Field) :
    Ends (typeFields id known fs) s (fun _ s' => SameNames s s') fun _ _ => True := by
  induction fs generalizing s known with
  | nil => exact Ends.pure (.refl s)
  | cons f fs ih =>
    refine (ofExcept_ends _).seq (fun _ _ _ => trivial) ?_
    rintro name _ ⟨rfl, _⟩
    split
    · exact Ends.throw trivial
    · refine (resolve_ends _).seq (fun _ _ _ => trivial) ?_
      rintro ty _ ⟨rfl, _⟩
      refine (intern_ends ty _).seq (fun _ _ _ => trivial) ?_
      rintro k _ ⟨types, rfl, _⟩
      refine Ends.bind (Ends.modify (ih _ |>.mono (fun _ _ h => ?_) fun _ _ h => h))
      exact ((SameNames.withTypes _ types).trans (.addField _ id ⟨name, k⟩)).trans h

/-- Fields of different names. -/
def FieldsApart (f f' : Field) : Prop := f.name.name? ≠ f'.name.name?

/-- The fields after one that is right. -/
theorem passes_field_bind {id name : String} {known : List Member} {f : Field} {fs : List Field}
    (hr : Right (Known s.names s.file) f.annotation)
    (ih : ∀ {s known}, Passes (typeFields id known fs) s ↔
      (∀ g ∈ fs, FieldRight (Known s.names s.file) g ∧ ∀ m ∈ known, g.name.name? ≠ some m.id) ∧
        fs.Pairwise FieldsApart) :
    Passes (do
      let h ← intern f.annotation.type f.annotation.position
      onNames (Registry.addField · id ⟨name, h⟩)
      typeFields id (known ++ [⟨name, f.annotation.type.typeId⟩]) fs) s ↔
      (∀ g ∈ fs, FieldRight (Known s.names s.file) g ∧
        (∀ m ∈ known, g.name.name? ≠ some m.id) ∧ g.name.name? ≠ some name) ∧
        fs.Pairwise FieldsApart := by
  refine passes_intern_bind hr.defined fun k types _ => ?_
  obtain ⟨s₁, hrun, hsame⟩ : ∃ s₁, onNames (Registry.addField · id ⟨name, k⟩) (withTypes s types) =
      .ok () s₁ ∧ SameNames s s₁ :=
    ⟨_, rfl, (SameNames.withTypes s types).trans (.addField _ id ⟨name, k⟩)⟩
  rw [passes_bind]
  constructor
  · rintro ⟨_, s', hrun', hp⟩
    cases hrun.symm.trans hrun'
    rw [ih, hsame.known] at hp
    simpa [or_imp, forall_and] using hp
  · intro hp
    refine ⟨(), s₁, hrun, ?_⟩
    rw [ih, hsame.known]
    simpa [or_imp, forall_and] using hp

theorem passes_typeFields {id : String} {known : List Member} {fs : List Field} :
    Passes (typeFields id known fs) s ↔
      (∀ f ∈ fs, FieldRight (Known s.names s.file) f ∧ ∀ m ∈ known, f.name.name? ≠ some m.id) ∧
        fs.Pairwise FieldsApart := by
  induction fs generalizing s known with
  | nil => exact ⟨fun _ => ⟨by simp, .nil⟩, fun _ => passes_pure known s⟩
  | cons f fs ih =>
    unfold typeFields
    rw [passes_ofExcept_bind, List.forall_mem_cons, List.pairwise_cons]
    constructor
    · rintro ⟨name, hname, hp⟩
      have hid := nameOf_eq_ok hname
      split at hp
      · exact absurd hp (not_passes_fail _ _)
      · next hany =>
        obtain ⟨hr, hp⟩ := passes_resolve_bind.mp hp
        obtain ⟨hall, hpairs⟩ := (passes_field_bind hr ih).mp hp
        refine ⟨⟨⟨⟨⟨name, hname⟩, hr⟩, fun m hm heq => ?_⟩, fun g hg => ?_⟩, fun g hg => ?_, hpairs⟩
        · rw [hid, Option.some.injEq] at heq
          exact hany (List.any_eq_true.mpr ⟨m, hm, by simp [heq]⟩)
        · exact ⟨(hall g hg).1, (hall g hg).2.1⟩
        · rw [FieldsApart, hid]
          exact fun heq => (hall g hg).2.2 heq.symm
    · rintro ⟨⟨⟨⟨⟨name, hname⟩, hr⟩, hnew⟩, hall⟩, hapart, hpairs⟩
      have hid := nameOf_eq_ok hname
      refine ⟨name, hname, ?_⟩
      rw [if_neg ?_]
      · rw [passes_resolve_bind]
        refine ⟨hr, (passes_field_bind hr ih).mpr ⟨fun g hg => ?_, hpairs⟩⟩
        refine ⟨(hall g hg).1, (hall g hg).2, fun heq => hapart g hg ?_⟩
        rw [hid, heq]
      · intro hany
        obtain ⟨m, hm, heq⟩ := List.any_eq_true.mp hany
        exact hnew m hm (by rw [hid, beq_iff_eq.mp heq])

/-- The fields of a type are right by themselves and have different names. -/
def FieldsRight (d : TypeDef) (known : String → Prop) : Prop :=
  (∀ f ∈ d.fields, FieldRight known f) ∧ d.fields.Pairwise FieldsApart

theorem passes_typeBody {d : TypeDef} :
    Passes (typeBody d) s ↔ IsName d.name ∧ FieldsRight d (Known s.names s.file) := by
  unfold typeBody IsName
  rw [passes_ofExcept_bind, ← exists_and_right]
  refine exists_congr fun id => and_congr_right fun _ => ?_
  have htotal : ∀ (fields : List Member) (s : Session), Passes (modify fun s : Session =>
      { s with
        memory := s.memory.addUdt ⟨id, fields⟩
        udts := if s.body.isNone then s.udts ++ [⟨id, fields⟩] else s.udts } : Check Unit) s :=
    fun fields s => ⟨(), _, rfl⟩
  have hfields : Passes (typeFields id [] d.fields) s ↔ FieldsRight d (Known s.names s.file) := by
    rw [passes_typeFields]
    simp [FieldsRight]
  rw [← hfields, passes_bind]
  exact ⟨fun ⟨fields, s', hrun, _⟩ => ⟨fields, s', hrun⟩,
    fun ⟨fields, s', hrun⟩ => ⟨fields, s', hrun, htotal fields s'⟩⟩

theorem typeBody_sameNames (d : TypeDef) :
    Ends (typeBody d) s (fun _ s' => SameNames s s') fun _ _ => True := by
  refine (ofExcept_ends _).seq (fun _ _ _ => trivial) ?_
  rintro id _ ⟨rfl, _⟩
  refine (typeFields_sameNames id [] d.fields).seq (fun _ _ h => h) fun fields s' h => ?_
  exact Ends.modify ⟨h.1, h.2.1, h.2.2⟩

theorem passes_typeBodies {ds : List TypeDef} : Passes (ds.forM typeBody) s ↔
    ∀ d ∈ ds, IsName d.name ∧ FieldsRight d (Known s.names s.file) :=
  passes_forM_iff_forall (fun d (s : Session) => IsName d.name ∧ FieldsRight d (Known s.names s.file))
    (fun _ _ _ => passes_typeBody) fun d _ _ _ hrun _ _ => by
      rw [((typeBody_sameNames d).ok hrun).known]

/-- The type has a size. -/
def TypeSized (m : Tracker) (d : TypeDef) : Prop := ∃ n, (ValueType.udt d.udt.id).size m = .ok n

theorem passes_typeSize {d : TypeDef} :
    Passes (typeSize d) s ↔ IsName d.name ∧ TypeSized s.memory d := by
  unfold typeSize IsName TypeSized
  rw [passes_ofExcept_bind, ← exists_and_right]
  refine exists_congr fun id => and_congr_right fun hid => ?_
  have hudt : d.udt.id = id := by simp [TypeDef.udt, nameOf_eq_ok hid]
  rw [passes_sizeOf_bind, hudt]
  exact exists_congr fun n => and_iff_left (passes_pure _ _)

theorem passes_typeSizes {ds : List TypeDef} : Passes (ds.forM typeSize) s ↔
    ∀ d ∈ ds, IsName d.name ∧ TypeSized s.memory d :=
  passes_forM_iff_forall (fun d (s : Session) => IsName d.name ∧ TypeSized s.memory d)
    (fun _ _ _ => passes_typeSize) fun d _ _ _ hrun _ _ => by
      rw [(typeSize_ends d).ok hrun]

/-! ### Types together -/

/-- The definitions can be made together: their names are new and different, their fields are built on
known types and on each other, and all have sizes. -/
structure TypesRight (ds : List TypeDef) (s : Session) : Prop where
  named : ∀ d ∈ ds, TypeNamed d s
  apart : ds.Pairwise NamedApart
  fields : ∀ d ∈ ds, FieldsRight d fun id => id ∈ ds.map (·.udt.id) ∨ Known s.names s.file id
  sized : ∀ d ∈ ds, TypeSized (s.memory.grow false [] (ds.map (·.udt)).reverse) d

/-- What is known once the names of all types are declared. -/
theorem known_typeNames (h : AtTop s) {ds : List TypeDef} (hrun : ds.forM typeName s = .ok () s') :
    Known s'.names s'.file = (fun id => id ∈ ds.map (·.udt.id) ∨ Known s.names s.file id) ∧
      s'.memory = s.memory := by
  obtain ⟨_, hm⟩ := (typeNames_ends ds (.refl s)).ok hrun
  rw [List.append_nil] at hm
  refine ⟨?_, by rw [hm.memory, Tracker.grow_nil]⟩
  funext id
  have hlookup : Known s'.names s'.file id ↔
      Known (s.names.onTable s.file (·.grow (ds.map (·.symbol)).reverse)) s.file id := by
    unfold Known
    rw [hm.lookup?_names]
  rw [eq_iff_iff, hlookup, known_grow_iff h hm.kinds fun x hx =>
    hm.fresh.current x.id (List.mem_map_of_mem hx)]
  simp [TypeDef.symbol, TypeDef.udt]

/-- Definitions of types are right in any order or in none. -/
theorem passes_types_iff {ds : List TypeDef} (h : AtTop s) :
    Passes (types ds) s ↔ TypesRight ds s := by
  have hsizes : ∀ {s₁ s₂}, ds.forM typeName s = .ok () s₁ → ds.forM typeBody s₁ = .ok () s₂ →
      s₂.memory = s.memory.grow false [] (ds.map (·.udt)).reverse := by
    intro s₁ s₂ hnames hbodies
    obtain ⟨_, hm⟩ := (typeNames_ends ds (.refl s)).ok hnames
    have hb : s₁.body.isSome = false := by rw [hm.body, h.body, Option.isSome_none]
    rw [((typeBodies_shaped ds).ok hbodies).memory, hb, (known_typeNames h hnames).2]
  unfold types
  rw [passes_bind]
  constructor
  · rintro ⟨_, s₁, hnames, hrest⟩
    obtain ⟨_, s₂, hbodies, hsize⟩ := passes_bind.mp hrest
    obtain ⟨hnamed, hapart⟩ := (passes_typeNames h).mp ⟨_, _, hnames⟩
    have hfields := passes_typeBodies.mp ⟨_, _, hbodies⟩
    rw [(known_typeNames h hnames).1] at hfields
    have hsized := passes_typeSizes.mp hsize
    rw [hsizes hnames hbodies] at hsized
    exact ⟨hnamed, hapart, fun d hd => (hfields d hd).2, fun d hd => (hsized d hd).2⟩
  · intro hr
    have hname : ∀ d ∈ ds, IsName d.name := fun d hd => by
      obtain ⟨id, hid, _⟩ := hr.named d hd
      exact ⟨id, hid⟩
    obtain ⟨_, s₁, hnames⟩ := (passes_typeNames h).mpr ⟨hr.named, hr.apart⟩
    have hfields : Passes (ds.forM typeBody) s₁ := by
      rw [passes_typeBodies, (known_typeNames h hnames).1]
      exact fun d hd => ⟨hname d hd, hr.fields d hd⟩
    obtain ⟨_, s₂, hbodies⟩ := hfields
    refine ⟨_, s₁, hnames, passes_bind.mpr ⟨_, s₂, hbodies, passes_typeSizes.mpr fun d hd => ?_⟩⟩
    rw [hsizes hnames hbodies]
    exact ⟨hname d hd, hr.sized d hd⟩

end Check

end StoragePlan
