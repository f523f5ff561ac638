import StoragePlan.Proofs.Making
import StoragePlan.Proofs.Resemblance

/-!
When the functions, variables and constants of a file are right. Each has to be right by itself, they
must have different names, which no type in sight has, and the globals must have room for all of them;
the order in which they stand does not matter.
-/

namespace StoragePlan

/-- The bytes of an item among the types `us`. -/
def Item.bytes (us : List Udt) : Item → Nat
  | .varDecl d => d.annotation.type.bytes us
  | .constDecl d => d.annotation.type.bytes us
  | _ => 0

theorem SameShapes.size {m m' : Tracker} (h : SameShapes m.udts m'.udts) (t : ValueType) :
    t.size m' = t.size m := ValueType.size_congr h.2 h.1 t

theorem Item.id?_of_name? {i : Item} {t : Token} (h : t ∈ i.name?) : i.id? = t.name? := by
  cases i <;> cases h <;> rfl

/-- The element of an item has the bytes of the item. -/
theorem Item.Makes.size {us : List Udt} {i : Item} {b : Binding} {e : Element} (h : i.Makes us b)
    (he : b.holding = .element e) : e.size = i.bytes us := by
  have hh := h.holding
  rw [he] at hh
  cases i <;> cases hh <;> rfl

theorem Item.Makes.id_element {us : List Udt} {i : Item} {b : Binding} {e : Element}
    (h : i.Makes us b) (he : b.holding = .element e) : e.id = some b.symbol.id := by
  have hid := h.id
  have hh := h.holding
  rw [he] at hh
  cases i <;> cases hh <;>
    simp only [Item.id?] at hid <;>
    simp [Element.function, FunctionDef.signature, VariableDecl.element, ConstantDecl.element,
      Annotation.element, Element.named, hid]

namespace Check

variable {s s' : Session} {α β : Type}

/-! ### Steps that declare nothing -/

theorem passes_bind_total {x : Check α} {f : α → Check β} (hf : ∀ a s', Passes (f a) s') :
    Passes (x >>= f) s ↔ Passes x s := by
  rw [passes_bind]
  exact ⟨fun ⟨a, s', hrun, _⟩ => ⟨a, s', hrun⟩, fun ⟨a, s', hrun⟩ => ⟨a, s', hrun, hf a s'⟩⟩

/-- What comes after a step that declares nothing. -/
theorem passes_bind_of_notes {x : Check α} {f : α → Check β} {P : Prop} (hx : Notes x)
    (hf : ∀ a s', Noted s s' → (Passes (f a) s' ↔ P)) :
    Passes (x >>= f) s ↔ Passes x s ∧ P := by
  rw [passes_bind]
  constructor
  · rintro ⟨a, s', hrun, hp⟩
    exact ⟨⟨a, s', hrun⟩, (hf a s' ((hx s).ok hrun)).mp hp⟩
  · rintro ⟨⟨a, s', hrun⟩, hp⟩
    exact ⟨a, s', hrun, (hf a s' ((hx s).ok hrun)).mpr hp⟩

theorem Noted.known (h : Noted s s') : Known s'.names s'.file = Known s.names s.file := by
  funext id
  unfold Known
  rw [h.lookup?_eq]

/-! ### Values -/

/-- The initializer is a literal whose type the target accepts. -/
def LiteralRight (target : ValueType) (e : Expr) : Prop :=
  ∃ id token t, e = .literal id token ∧ ValueType.ofLiteral token = .ok t ∧ target.accepts t = true

theorem passes_literalFor {id : String} {target : ValueType} {e : Expr} :
    Passes (literalFor id target e) s ↔ LiteralRight target e := by
  unfold literalFor LiteralRight
  split
  · next n token =>
    have hexpr : ∀ {t}, ValueType.ofLiteral token = .ok t →
        ∃ s', expr (.literal n token) s = .ok t s' := by
      intro t ht
      obtain ⟨a, s', hrun⟩ : Passes (record n t) s := by
        cases hrun : record n t s with
        | ok a s' => exact ⟨a, s', hrun⟩
        | error f s' => exact ((record_total n t).error hrun).elim
      obtain rfl := (record_total n t).ok hrun
      refine ⟨s', ?_⟩
      rw [expr, ht]
      exact hrun
    rw [passes_bind]
    constructor
    · rintro ⟨t, s', hrun, hp⟩
      refine ⟨n, token, t, rfl, ?_, ?_⟩
      · rw [expr] at hrun
        obtain ⟨t', s₁, hl, hr⟩ := bind_eq_ok hrun
        rw [((ofExcept_ends _).ok hl).2, (record_total n t').ok hr]
      · exact ((passes_ite _ _).mp hp).1
    · rintro ⟨_, _, t, heq, ht, ha⟩
      cases heq
      obtain ⟨s', hrun⟩ := hexpr ht
      exact ⟨t, s', hrun, (passes_ite _ _).mpr ⟨ha, passes_pure _ _⟩⟩
  · next h =>
    refine iff_of_false (not_passes_fail _ _) ?_
    rintro ⟨n, token, t, rfl, _⟩
    exact h n token rfl

theorem passes_forM_option {γ : Type} {g : γ → Check PUnit} {P : γ → Prop} {o : Option γ}
    (h : ∀ c, Passes (g c) s ↔ P c) : Passes (o.forM g) s ↔ ∀ c ∈ o, P c := by
  cases o with
  | none => exact iff_of_true (passes_pure _ _) (by simp)
  | some c => simpa [Option.forM] using h c

/-- The annotation, and the initializer if there is one, make a value. -/
structure ValueRight (known : String → Prop) (m : Tracker) (a : Annotation) (init : Option Expr) :
    Prop where
  type : Right known a
  sized : ∃ n, a.type.size m = .ok n
  value : ∀ e ∈ init, LiteralRight a.type e

theorem passes_declareValue_bind {id : String} {kind : Handle → SymbolKind} {exported : Bool}
    {p : Position} {t : ValueType} {size : Nat} {v : Int} {f : Element → Check β} (ht : t.Defined)
    (hf : ∀ e s', Passes (f e) s') :
    Passes (declareValue id kind exported p t size v >>= f) s ↔ used s + size ≤ maxStorage := by
  rw [passes_bind_total hf]
  unfold declareValue
  rw [passes_bind_of_ends (P := fun _ => used s + size ≤ maxStorage)
    ((requireRoom_ends id size p).mono (fun _ _ h => h) fun _ _ h => h)
    fun _ h => requireRoom_of_le h id p]
  have hrest : Passes (do
      let h ← intern t p
      declare ⟨id, kind h, exported, p⟩
      return Element.named id t.typeId size v) s :=
    passes_intern_bind_total ht fun _ _ => ⟨_, _, rfl⟩
  exact ⟨fun ⟨_, h, _⟩ => h, fun h => ⟨(), h, hrest⟩⟩

/-- The name of an item can be declared. -/
def Named (name : Token) (s : Session) : Prop := ∃ id, nameOf name = .ok id ∧ New s id

/-- A declaration of a value outside of functions. -/
theorem passes_value {name : Token} {a : Annotation} {init : Option Expr}
    {kind : Handle → SymbolKind} {exported : Bool} {v : Int}
    {check : String → ValueType → Check Unit} {put : Element → Check Unit}
    (hcheck : ∀ id s, Passes (check id a.type) s ↔ ∀ e ∈ init, LiteralRight a.type e)
    (hnotes : ∀ id t, Notes (check id t)) (hput : ∀ e s, Passes (put e) s)
    (hb : s.body = none) (hu : bytesOf s.memory.dataSegment ≤ maxStorage) :
    Passes (do
      let id ← ofExcept (nameOf name)
      requireNew id name.position
      let t ← resolve a
      let size ← sizeOf t a.position
      check id t
      let e ← declareValue id kind exported name.position t size v
      put e) s ↔
      (Named name s ∧ ValueRight (Known s.names s.file) s.memory a init) ∧
        bytesOf s.memory.dataSegment + a.type.bytes s.memory.udts ≤ maxStorage := by
  have hused : ∀ s', Noted s s' → used s' = bytesOf s.memory.dataSegment := by
    intro s' hs
    have hnone : s'.body.isSome = false := by simp [hs.same, hb]
    rw [used, hnone, hs.memory_eq, if_neg Bool.false_ne_true, Tracker.dataSize,
      totalSize_eq_bytesOf hu]
  have hrest : ∀ {id n}, Right (Known s.names s.file) a → a.type.size s.memory = .ok n →
      (Passes (do
        check id a.type
        let e ← declareValue id kind exported name.position a.type n v
        put e) s ↔ (∀ e ∈ init, LiteralRight a.type e) ∧
          bytesOf s.memory.dataSegment + a.type.bytes s.memory.udts ≤ maxStorage) := by
    intro id n hr hn
    rw [passes_bind_of_notes (hnotes id a.type) fun _ s' hs => ?_, hcheck]
    rw [passes_declareValue_bind hr.defined hput, hused s' hs, ValueType.size_eq_ok hn]
  rw [passes_ofExcept_bind]
  constructor
  · rintro ⟨id, hid, hp⟩
    obtain ⟨hnew, hp⟩ := passes_requireNew_bind.mp hp
    obtain ⟨hr, hp⟩ := passes_resolve_bind.mp hp
    obtain ⟨n, hn, hp⟩ := passes_sizeOf_bind.mp hp
    obtain ⟨hvalue, hroom⟩ := (hrest hr hn).mp hp
    exact ⟨⟨⟨id, hid, hnew⟩, hr, ⟨n, hn⟩, hvalue⟩, hroom⟩
  · rintro ⟨⟨⟨id, hid, hnew⟩, hr, ⟨n, hn⟩, hvalue⟩, hroom⟩
    refine ⟨id, hid, passes_requireNew_bind.mpr ⟨hnew, passes_resolve_bind.mpr ⟨hr, ?_⟩⟩⟩
    exact passes_sizeOf_bind.mpr ⟨n, hn, (hrest hr hn).mpr ⟨hvalue, hroom⟩⟩

theorem passes_globalVariable {d : VariableDecl} (hb : s.body = none)
    (hu : bytesOf s.memory.dataSegment ≤ maxStorage) :
    Passes (globalVariable d) s ↔
      (Named d.name s ∧ ValueRight (Known s.names s.file) s.memory d.annotation d.value) ∧
        bytesOf s.memory.dataSegment + d.annotation.type.bytes s.memory.udts ≤ maxStorage :=
  passes_value (fun _ _ => passes_forM_option fun _ => passes_literalFor)
    (fun id t => .forM_option (fun e => notes_literalFor id t e) _) (fun _ _ => ⟨_, _, rfl⟩) hb hu

theorem passes_constant {d : ConstantDecl} (hb : s.body = none)
    (hu : bytesOf s.memory.dataSegment ≤ maxStorage) :
    Passes (constant d) s ↔
      (Named d.name s ∧ ValueRight (Known s.names s.file) s.memory d.annotation (some d.value)) ∧
        bytesOf s.memory.dataSegment + d.annotation.type.bytes s.memory.udts ≤ maxStorage := by
  refine passes_value (fun _ _ => ?_) (fun id t => notes_literalFor id t d.value) (fun e s => ?_) hb hu
  · simpa using passes_literalFor
  · rw [passes_bind]
    refine ⟨s, s, rfl, ?_⟩
    split <;> exact ⟨_, _, rfl⟩

/-! ### Functions -/

theorem passes_parameter {f : Field} :
    Passes (parameter f) s ↔ FieldRight (Known s.names s.file) f := by
  unfold parameter FieldRight IsName
  rw [passes_ofExcept_bind, ← exists_and_right]
  refine exists_congr fun id => and_congr_right fun _ => ?_
  rw [passes_resolve_bind]
  exact and_iff_left_of_imp fun hr => passes_intern_bind_total hr.defined fun _ _ => passes_pure _ _

theorem notes_parameters (fs : List Field) : Notes (fs.mapM parameter) := by
  induction fs with
  | nil => exact .pure []
  | cons f fs ih =>
    rw [List.mapM_cons]
    exact (notes_parameter f).bind fun p => ih.bind fun ps => .pure _

theorem passes_parameters {fs : List Field} :
    Passes (fs.mapM parameter) s ↔ ∀ f ∈ fs, FieldRight (Known s.names s.file) f := by
  induction fs generalizing s with
  | nil => exact iff_of_true (passes_pure _ _) (by simp)
  | cons f fs ih =>
    rw [List.mapM_cons, passes_bind_of_notes (notes_parameter f) fun p s' hs => ?_,
      passes_parameter, List.forall_mem_cons]
    rw [passes_bind_total fun _ _ => passes_pure _ _, ih, hs.known]

theorem passes_returnType {o : Option Annotation} :
    Passes (o.mapM returnType) s ↔ ∀ a ∈ o, Right (Known s.names s.file) a := by
  cases o with
  | none => exact iff_of_true (passes_pure _ _) (by simp)
  | some a =>
    have hreturn : Passes (returnType a) s ↔ Right (Known s.names s.file) a := by
      unfold returnType
      rw [passes_resolve_bind]
      exact and_iff_left_of_imp fun hr => passes_intern_bind_total hr.defined fun _ _ => passes_pure _ _
    rw [Option.mapM_some, map_eq_pure_bind, passes_bind_total fun _ _ => passes_pure _ _, hreturn]
    simp

/-- The parameters and the return type of a function are right. -/
structure SignatureRight (known : String → Prop) (d : FunctionDef) : Prop where
  params : ∀ f ∈ d.params, FieldRight known f
  returns : ∀ a ∈ d.returns, Right known a

theorem passes_functionName {d : FunctionDef} :
    Passes (functionName d) s ↔ Named d.name s ∧ SignatureRight (Known s.names s.file) d := by
  have hrest : ∀ {id : String}, Passes (do
      let params ← d.params.mapM parameter
      let returns ← d.returns.mapM returnType
      declare ⟨id, .function (params.map (·.1)) (returns.map (·.1)), d.exported, d.name.position⟩
      onMemory (·.insert (.function ⟨id, params.map (·.2), returns.map (·.2)⟩))) s ↔
      SignatureRight (Known s.names s.file) d := by
    intro id
    rw [passes_bind_of_notes (notes_parameters d.params) fun _ s' hs => ?_, passes_parameters]
    · exact ⟨fun ⟨h, h'⟩ => ⟨h, h'⟩, fun h => ⟨h.params, h.returns⟩⟩
    · refine (passes_bind_total fun r s' => ?_).trans ?_
      · exact ⟨_, _, rfl⟩
      · rw [passes_returnType, hs.known]
  unfold functionName Named
  rw [passes_ofExcept_bind, ← exists_and_right]
  refine exists_congr fun id => ?_
  rw [passes_requireNew_bind, hrest, and_assoc]

/-! ### Items -/

/-- The item is right by itself, whatever else the file declares at its top level. -/
def ItemFits (known : String → Prop) (m : Tracker) : Item → Prop
  | .importFile _ => True
  | .typeDef _ => True
  | .function d => SignatureRight known d
  | .varDecl d => ValueRight known m d.annotation d.value
  | .constDecl d => ValueRight known m d.annotation (some d.value)

/-- The item can be declared. -/
def ItemRight (i : Item) (s : Session) : Prop :=
  (∀ name ∈ i.name?, Named name s) ∧ ItemFits (Known s.names s.file) s.memory i

theorem passes_item {i : Item} (hb : s.body = none) (hu : bytesOf s.memory.dataSegment ≤ maxStorage) :
    Passes (item i) s ↔
      ItemRight i s ∧ bytesOf s.memory.dataSegment + i.bytes s.memory.udts ≤ maxStorage := by
  unfold ItemRight
  cases i with
  | importFile _ => simpa [item, ItemFits, Item.name?, Item.bytes, hu] using passes_pure _ _
  | typeDef _ => simpa [item, ItemFits, Item.name?, Item.bytes, hu] using passes_pure _ _
  | function d => simpa [item, ItemFits, Item.name?, Item.bytes, hu] using passes_functionName
  | varDecl d => simpa [item, ItemFits, Item.name?, Item.bytes] using passes_globalVariable hb hu
  | constDecl d => simpa [item, ItemFits, Item.name?, Item.bytes] using passes_constant hb hu

/-! ### Items together -/

/-- Two functions, variables or constants with different names. -/
def ItemsApart (i i' : Item) : Prop := ∀ t ∈ i.name?, ∀ t' ∈ i'.name?, t.name? ≠ t'.name?

/-- No function, variable or constant has the name of a type in sight. -/
def Unshadowed (is : List Item) (s : Session) : Prop :=
  ∀ i ∈ is, ∀ t ∈ i.name?, ∀ id, t.name? = some id → ¬ Known s.names s.file id

/-- A function, a variable or a constant changes what no type name means, if no type has its name. -/
theorem Grown.known_of_apart {b : Binding} (hg : Grown [b] s s') (h : AtTop s)
    (hu : b.symbol.isUdt = false) (hc : s.names.current? s.file b.symbol.id = none)
    (hk : ¬ Known s.names s.file b.symbol.id) :
    Known s'.names s'.file = Known s.names s.file := by
  funext id
  have hlookup : s'.names.lookup? s'.file id =
      (s.names.onTable s.file (·.grow [b.symbol])).lookup? s.file id := hg.lookup?_names id
  by_cases hid : b.symbol.id = id
  · subst hid
    refine eq_iff_iff.mpr (iff_of_false ?_ hk)
    rintro ⟨x, hx, hx'⟩
    obtain ⟨t, ht, hs⟩ := h.table
    obtain ⟨y, hy, _, hl⟩ := Registry.lookup?_grow_of_mem ht hs hc (List.mem_singleton.mpr rfl) rfl
    rw [hlookup, hl] at hx
    cases hx
    rw [List.mem_singleton.mp hy, hu] at hx'
    cases hx'
  · unfold Known
    rw [hlookup, Registry.lookup?_grow_of_ne (by simpa using hid)]

theorem ItemFits.of_udts {known : String → Prop} {m m' : Tracker} (h : m'.udts = m.udts) (i : Item) :
    ItemFits known m' i ↔ ItemFits known m i := by
  have hsize : ∀ t : ValueType, t.size m' = t.size m :=
    SameShapes.size ⟨by rw [h], fun id => by rw [h]⟩
  have hvalue : ∀ a init, ValueRight known m' a init ↔ ValueRight known m a init := fun a init =>
    ⟨fun hv => ⟨hv.type, hsize _ ▸ hv.sized, hv.value⟩,
      fun hv => ⟨hv.type, (hsize _).symm ▸ hv.sized, hv.value⟩⟩
  cases i with
  | varDecl d => exact hvalue _ _
  | constDecl d => exact hvalue _ _
  | _ => exact Iff.rfl

theorem named_grown_iff {b : Binding} {e : Element} (h : AtTop s) (hg : Grown [b] s s')
    (hb : b.holding = .element e) (he : e.id = some b.symbol.id) (name : Token) :
    Named name s' ↔ Named name s ∧ name.name? ≠ some b.symbol.id := by
  have hm : s'.memory = s.memory.grow false [e] [] := by
    rw [hg.memory_of_holding hb, h.body, Option.isSome_none]
  have hnew := new_grow_iff h hg.file (h.grown hg).body hm hg.tables (by simpa using he)
  unfold Named
  constructor
  · rintro ⟨id, hid, hn⟩
    obtain ⟨hn, hne⟩ := (hnew id).mp hn
    refine ⟨⟨id, hid, hn⟩, ?_⟩
    rw [nameOf_eq_ok hid]
    simpa [eq_comm] using hne
  · rintro ⟨⟨id, hid, hn⟩, hne⟩
    rw [nameOf_eq_ok hid] at hne
    exact ⟨id, hid, (hnew id).mpr ⟨hn, by simpa [eq_comm] using hne⟩⟩

/-- What the other items are left with after one of them. -/
theorem itemRight_grown_iff {i i' : Item} {b : Binding} {e : Element} (h : AtTop s)
    (hg : Grown [b] s s') (hm : i.Makes s.memory.udts b) (hi : i.isValue = true)
    (hb : b.holding = .element e) (he : e.id = some b.symbol.id)
    (hk : Known s'.names s'.file = Known s.names s.file) :
    ItemRight i' s' ↔ ItemRight i' s ∧ ItemsApart i i' := by
  obtain ⟨t, ht⟩ := Option.isSome_iff_exists.mp hi
  have hid : t.name? = some b.symbol.id := by rw [← Item.id?_of_name? ht, hm.id]
  have hapart : ItemsApart i i' ↔ ∀ name ∈ i'.name?, name.name? ≠ some b.symbol.id := by
    unfold ItemsApart
    rw [ht]
    simp [hid, eq_comm]
  unfold ItemRight
  rw [hk, ItemFits.of_udts (hg.udts_of_holding hb), hapart]
  simp only [named_grown_iff h hg hb he, imp_and, forall_and]
  exact and_right_comm

theorem passes_items_iff {is : List Item} (h : AtTop s)
    (hu : bytesOf s.memory.dataSegment ≤ maxStorage) (hk : Unshadowed is s) :
    Passes (is.forM item) s ↔ (∀ i ∈ is, ItemRight i s) ∧ is.Pairwise ItemsApart ∧
      bytesOf s.memory.dataSegment + (is.map (·.bytes s.memory.udts)).sum ≤ maxStorage := by
  -- An item takes its name and its bytes; the types stay as they are, and so does what is known of them.
  refine passes_forM_iff
    (fun s' => AtTop s' ∧ bytesOf s'.memory.dataSegment ≤ maxStorage ∧ Unshadowed is s' ∧
      s'.memory.udts = s.memory.udts)
    ItemRight ItemsApart (fun s' => bytesOf s'.memory.dataSegment) (·.bytes s.memory.udts) maxStorage
    (fun i _ s' ⟨h', hu', _, hudts⟩ => hudts ▸ passes_item h'.body hu') (fun i hi s₁ s₂ hI hrun => ?_)
    ⟨h, hu, hk, rfl⟩ hu
  obtain ⟨h₁, hu₁, hk₁, hudts⟩ := hI
  obtain ⟨hright, hroom⟩ := (passes_item h₁.body hu₁).mp ⟨_, _, hrun⟩
  have hmakes := (item_makes i h₁.body).ok hrun
  split at hmakes
  · next hv =>
    obtain ⟨b, hg, hm⟩ := hmakes
    obtain ⟨e, hb⟩ := hm.element hv
    obtain ⟨t, ht⟩ := Option.isSome_iff_exists.mp hv
    obtain ⟨id, hid, hnew⟩ := hright.1 t ht
    have hname : t.name? = some b.symbol.id := by rw [← Item.id?_of_name? ht, hm.id]
    obtain rfl : id = b.symbol.id := Option.some.inj ((nameOf_eq_ok hid).symm.trans hname)
    have hknown : Known s₂.names s₂.file = Known s₁.names s₁.file :=
      hg.known_of_apart h₁ (by rw [hm.isUdt, hv]; rfl) hnew.1 (hk₁ i hi t ht _ hname)
    have hbytes : bytesOf s₂.memory.dataSegment = bytesOf s₁.memory.dataSegment + i.bytes s.memory.udts := by
      rw [hg.memory_of_holding hb, h₁.body, ← hudts, ← hm.size hb]
      simp [Tracker.grow]
    refine ⟨⟨h₁.grown hg, ?_, ?_, (hg.udts_of_holding hb).trans hudts⟩, hbytes, fun j _ => ?_⟩
    · rw [hbytes, ← hudts]
      exact hroom
    · intro j hj t' ht' id' hid'
      rw [hknown]
      exact hk₁ j hj t' ht' id' hid'
    · exact itemRight_grown_iff h₁ hg hm hv hb (hm.id_element hb) hknown
  · next hv =>
    subst hmakes
    have hnone : i.name? = none := by simpa [Item.isValue] using hv
    have hbytes : i.bytes s.memory.udts = 0 := by cases i <;> first | rfl | cases hnone
    refine ⟨⟨h₁, hu₁, hk₁, hudts⟩, by rw [hbytes, Nat.add_zero], fun j _ => ?_⟩
    exact (and_iff_left fun t ht => by simp [hnone] at ht).symm

/-! ### The types of the same file -/

/-- The name of a declaration that comes after others is none of theirs. -/
theorem Grown.ne_of_current? {bs : List Binding} (hg : Grown bs s s')
    (ht : (s.names.table? s.file).isSome) {id : String} (hc : s'.names.current? s'.file id = none)
    {b : Binding} (hb : b ∈ bs) : b.symbol.id ≠ id := by
  obtain ⟨t, ht⟩ := Option.isSome_iff_exists.mp ht
  rw [Registry.current?, hg.table?, ht, Option.map_some, Option.bind_some, SymbolTable.gain,
    SymbolTable.current?_grow] at hc
  exact hc.2 _ (List.mem_map_of_mem hb)

theorem named_of_passes {name : Token} {p : Position} {f : String → Check β}
    (h : Passes (do
      let id ← ofExcept (nameOf name)
      requireNew id p
      f id) s) : Named name s := by
  obtain ⟨id, hid, hp⟩ := passes_ofExcept_bind.mp h
  exact ⟨id, hid, (passes_requireNew_bind.mp hp).1⟩

theorem item_named {i : Item} (h : Passes (item i) s) : ∀ t ∈ i.name?, Named t s := by
  rintro t ht
  cases i with
  | importFile i => cases ht
  | typeDef d => cases ht
  | function d =>
    cases ht
    exact named_of_passes h
  | varDecl d =>
    cases ht
    exact named_of_passes h
  | constDecl d =>
    cases ht
    exact named_of_passes h

/-- In a file that is right no function, variable or constant has the name of a type of the file. -/
theorem types_apart_items {f : SourceFile} (ht : (s.names.table? s.file).isSome) (hb : s.body = none)
    (hrun : file f s = .ok () s') {d : TypeDef} (hd : d ∈ f.types) {i : Item} (hi : i ∈ f.items)
    {t : Token} (hit : t ∈ i.name?) {id : String} (hid : d.name.name? = some id) :
    t.name? ≠ some id := by
  obtain ⟨_, s₁, htypes, hrest⟩ := bind_eq_ok hrun
  obtain ⟨_, s₂, hitems, _⟩ := bind_eq_ok hrest
  obtain ⟨bs, hg, hmade, _⟩ := (types_make [] f.types).ok htypes
  have hb₁ : s₁.body = none := by simpa [hb] using hg.isSome_body
  obtain ⟨before, after, hsplit⟩ := List.append_of_mem hi
  have happend : (before ++ i :: after).forM item =
      before.forM item >>= fun _ => (i :: after).forM item := List.forM_append
  rw [hsplit, happend] at hitems
  obtain ⟨_, s₃, hbefore, hafter⟩ := bind_eq_ok hitems
  obtain ⟨_, s₄, hitem, _⟩ := bind_eq_ok hafter
  obtain ⟨bs', hg', _, _⟩ := (items_make before hb₁).ok hbefore
  obtain ⟨id', hid', hnew⟩ := item_named ⟨_, _, hitem⟩ t hit
  obtain ⟨b, hmem, hm⟩ := hmade.all _ (List.mem_map_of_mem hd) rfl
  have hname : b.symbol.id = id := Option.some.inj (hm.id.symm.trans hid)
  rw [nameOf_eq_ok hid', Ne, Option.some.injEq, ← hname]
  exact ((hg.trans hg').ne_of_current? ht hnew.1 (List.mem_append_right _ hmem)).symm

end Check

end StoragePlan
