import StoragePlan.Check.Decl
import StoragePlan.Proofs.Steps

/-!
Declaring types. The names of the types come first, then their fields, then their sizes; in between,
symbols stand in the table for types that storage does not have yet. `Midway` describes these
sessions, and the end of the road is a session grown by one binding for each type.
-/

namespace StoragePlan

/-- The symbol of a type before any of its fields is known. -/
def TypeDef.symbol (d : TypeDef) : Symbol :=
  ⟨d.name.name?.getD "", .udt [], d.exported, d.name.position⟩

theorem nameOf_eq_ok {t : Token} {id : String} (h : nameOf t = .ok id) : t.name? = some id := by
  unfold nameOf at h
  split at h
  · next hn => rw [hn, Except.ok.inj h]
  · cases h

theorem TypeDef.id_symbol {d : TypeDef} {id : String} (h : nameOf d.name = .ok id) :
    d.symbol.id = id := by
  simp [symbol, nameOf_eq_ok h]

namespace Check

/-- The names are new to the current scope, each differs from the others, and no active type has
one of them. -/
structure Fresh (ids : List String) (s : Session) : Prop where
  current : ∀ id ∈ ids, s.names.current? s.file id = none
  nodup : (s.names.table? s.file).isSome → ids.Nodup
  inactive : ∀ id ∈ ids, s.memory.findUdt? id = none

/-- The name is one of these, or means a type in the session. -/
def Among (ids : List String) (s : Session) (id : String) : Prop :=
  id ∈ ids ∨ Known s.names s.file id

/-- The type id is that of the type that an annotation stands for. -/
def Writes (known : String → Prop) (a : Annotation) (typeId : String) : Prop :=
  ∃ t : ValueType, Resolves known a t ∧ typeId = t.typeId

/-- The session `s'` is `s` with the symbols `ss` of types and the types `us`, both newest first. -/
structure Midway (ss : List Symbol) (us : List Udt) (s s' : Session) : Prop where
  file : s'.file = s.file
  memory : s'.memory = s.memory.grow s.body.isSome [] us
  tables : s'.names.tables = (s.names.onTable s.file (·.grow ss)).tables
  types : s.names.types.Grown s'.names.types
  body : s'.body = s.body
  frames : s'.frames = s.frames
  udts : s'.udts = if s.body.isSome then s.udts else s.udts ++ us.reverse
  kinds : ∀ x ∈ ss, x.isUdt = true
  fresh : Fresh (ss.map (·.id)) s

/-- The binding of a type that is declared in full. -/
def TypeBinding (b : Binding) : Prop := ∃ fields, b.holding = .udt ⟨b.symbol.id, fields⟩

namespace Midway

variable {ss as bs : List Symbol} {us : List Udt} {s s' s'' : Session} {x : Symbol}

theorem refl (s : Session) : Midway [] [] s s where
  file := rfl
  memory := by simp
  tables := by simp [Registry.onTable, updateFirst_id]
  types := .refl _
  body := rfl
  frames := rfl
  udts := by simp
  kinds x hx := by cases hx
  fresh := ⟨by simp, by simp, by simp⟩

/-- Giving a handle to a type does not lead off the way. -/
theorem noted (h : Midway ss us s s') {types : TypeTable} (hg : s'.names.types.Grown types) :
    Midway ss us s (withTypes s' types) :=
  ⟨h.file, h.memory, h.tables, h.types.trans hg, h.body, h.frames, h.udts, h.kinds, h.fresh⟩

theorem depth_names (h : Midway ss us s s') :
    s'.names.depth s.file = s.names.depth s.file := by
  have hd : s'.names.depth s.file = (s.names.onTable s.file (·.grow ss)).depth s.file := by
    unfold Registry.depth
    rw [Registry.table?_congr h.tables]
  rw [hd, Registry.depth_onTable_grow]

theorem remains (h : Midway ss us s s') : Remains [] us ss s s' := by
  have hd : s'.memory.depth = s.memory.depth := by rw [h.memory, Tracker.depth_grow]
  constructor
  case memory => rw [← hd, Tracker.closeTo_depth, h.memory]
  case deeper => omega
  case tables => rw [← h.depth_names, Registry.closeTo_depth, h.tables]
  case further => exact Nat.le_of_eq h.depth_names.symm
  case stored =>
    intro _
    refine ⟨[], ?_, rfl, fun b hb => by cases hb⟩
    rw [List.map_nil, eq_comm, List.filter_eq_nil_iff]
    intro x hx
    simp [h.kinds x hx]
  case distinct =>
    intro _ hd
    cases hb : s.body.isSome <;> simpa [Tracker.Distinct, Tracker.grow] using hd

theorem failed (h : Midway ss us s s') : Failed s s' :=
  ⟨h.file, h.types, [], us, ss, h.remains⟩

/-- A name that the current scope does not have on the way is new from the start. -/
theorem current? (h : Midway ss us s s') {id : String}
    (hc : s'.names.current? s'.file id = none) :
    s.names.current? s.file id = none ∧
      ((s.names.table? s.file).isSome → id ∉ ss.map (·.id)) := by
  unfold Registry.current? at hc ⊢
  rw [h.file, Registry.table?_congr h.tables,
    Registry.table?_onTable (fun t => t.file_grow ss)] at hc
  cases ht : s.names.table? s.file with
  | none => simp
  | some t =>
    rw [ht, Option.map_some, Option.bind_some, SymbolTable.current?_grow] at hc
    refine ⟨hc.1, fun _ hm => ?_⟩
    obtain ⟨x, hx, hid⟩ := List.mem_map.mp hm
    exact hc.2 x hx hid

theorem lookup?_names (h : Midway ss us s s') (id : String) :
    s'.names.lookup? s'.file id = (s.names.onTable s.file (·.grow ss)).lookup? s.file id := by
  rw [h.file, Registry.lookup?_congr h.tables]

theorem known (h : Midway ss us s s') {id : String} (hk : Known s'.names s'.file id) :
    Among (ss.map (·.id)) s id := by
  obtain ⟨x, hx, hu⟩ := hk
  rw [h.lookup?_names] at hx
  exact Known.of_grow ⟨x, hx, hu⟩

/-- One more name. -/
theorem declare (h : Midway ss [] s s') (hx : x.isUdt = true)
    (hc : s'.names.current? s'.file x.id = none) (hu : s'.memory.findUdt? x.id = none) :
    Midway (x :: ss) [] s { s' with names := s'.names.addSymbol s'.file x } where
  file := h.file
  memory := h.memory
  tables := by
    simp only [Registry.addSymbol, Registry.onTable, h.file, h.tables]
    rw [updateFirst_updateFirst (fun t ht => by simpa using ht)]
    congr 1
    funext t
    exact (SymbolTable.add_eq_grow x _).trans (t.grow_grow ss [x])
  types := h.types
  body := h.body
  frames := h.frames
  udts := h.udts
  kinds := List.forall_mem_cons.mpr ⟨hx, h.kinds⟩
  fresh := by
    have hn := h.current? hc
    rw [h.memory, Tracker.grow_nil] at hu
    refine ⟨List.forall_mem_cons.mpr ⟨hn.1, h.fresh.current⟩, fun ht => ?_,
      List.forall_mem_cons.mpr ⟨hu, h.fresh.inactive⟩⟩
    exact List.nodup_cons.mpr ⟨hn.2 ht, h.fresh.nodup ht⟩

/-- One more field of a type whose name is known. -/
theorem addField (h : Midway (as ++ x :: bs) us s s') (field : TypedName) :
    Midway (as ++ x.addField field :: bs) us s
      { s' with names := s'.names.addField s'.file x.id field } where
  file := h.file
  memory := h.memory
  tables := by
    rw [Registry.tables_addField_congr h.tables, h.file, Registry.addField_grow]
    intro t ht
    have hn := h.fresh.nodup (by simp [ht])
    have hc := h.fresh.current x.id (by simp)
    rw [Registry.current?, ht, Option.bind_some] at hc
    refine ⟨hc, fun a ha hid => ?_⟩
    simp only [List.map_append, List.map_cons, List.nodup_append, List.nodup_cons] at hn
    obtain ⟨_, ⟨hb, _⟩, hab⟩ := hn
    rcases List.mem_append.mp ha with ha | ha
    · exact hab a.id (List.mem_map_of_mem ha) x.id List.mem_cons_self hid
    · exact hb (hid ▸ List.mem_map_of_mem ha)
  types := by
    rw [Registry.types_addField]
    exact h.types
  body := h.body
  frames := h.frames
  udts := h.udts
  kinds y hy := by
    have hk := h.kinds
    simp only [List.mem_append, List.mem_cons] at hk hy
    rcases hy with hy | rfl | hy
    · exact hk y (.inl hy)
    · rw [Symbol.isUdt_addField]
      exact hk x (.inr (.inl rfl))
    · exact hk y (.inr (.inr hy))
  fresh := by
    have hf := h.fresh
    simpa [Symbol.id_addField] using hf

/-- A type becomes active. -/
theorem addUdt (h : Midway ss us s s') (u : Udt) :
    Midway ss (u :: us) s
      { s' with
        memory := s'.memory.addUdt u
        udts := if s'.body.isNone then s'.udts ++ [u] else s'.udts } where
  file := h.file
  memory := by
    rw [h.memory, Tracker.addUdt_eq_grow s.body.isSome, Tracker.grow_grow]
    rfl
  tables := h.tables
  types := h.types
  body := h.body
  frames := h.frames
  udts := by
    rw [h.body, h.udts]
    cases s.body <;> simp
  kinds := h.kinds
  fresh := h.fresh

/-- At the end of the way every symbol has its type. -/
theorem grown {bs : List Binding} (h : Midway (bs.map (·.symbol)) (bs.filterMap (·.udt?)) s s')
    (hm : s.names.types.Ordered → ∀ b ∈ bs, b.Matches s'.names.types)
    (hu : ∀ b ∈ bs, TypeBinding b) : Grown bs s s' := by
  have he : bs.filterMap (·.element?) = [] := by
    rw [List.filterMap_eq_nil_iff]
    intro b hb
    obtain ⟨fields, hf⟩ := hu b hb
    simp [Binding.element?, hf]
  have hids : (bs.filterMap (·.udt?)).map (·.id) = (bs.map (·.symbol)).map (·.id) := by
    clear h hm he
    induction bs with
    | nil => rfl
    | cons b bs ih =>
      rw [List.forall_mem_cons] at hu
      obtain ⟨⟨fields, hf⟩, hu⟩ := hu
      simpa [Binding.udt?, hf] using ih hu
  exact {
    file := h.file
    memory := by rw [h.memory, Tracker.gain, he]
    tables := h.tables
    types := h.types
    body := ⟨[], by rw [h.body]; cases s.body <;> simp [Body.release]⟩
    frames := h.frames
    udts := h.udts
    sound := hm
    distinct := fun _ hd => by
      rw [h.memory]
      cases s.body.isSome <;> simpa [Tracker.Distinct, Tracker.grow] using hd
    shapes := fun ht hn => by
      rw [h.memory, Tracker.udts_grow, List.map_append, hids, List.nodup_append]
      refine ⟨h.fresh.nodup ht, hn, fun id hid id' hid' heq => ?_⟩
      obtain ⟨u, hu', rfl⟩ := List.mem_map.mp hid'
      have hi := h.fresh.inactive id hid
      rw [Tracker.findUdt?, List.find?_eq_none] at hi
      exact hi u hu' (by simp [heq])
    fits := fun hf => by
      rw [h.memory]
      cases s.body.isSome <;> simpa [Tracker.Fits, Tracker.grow] using hf }

end Midway

/-! ### Names, fields, sizes -/

variable {s s' : Session}

/-- A failure on the way, with these names declared and perhaps more. -/
def Halted (ids : List String) (s s' : Session) : Prop :=
  ∃ ss us, Midway ss us s s' ∧ ids <:+ ss.map (·.id)

theorem Midway.halted {ss : List Symbol} {us : List Udt} (h : Midway ss us s s') :
    Halted (ss.map (·.id)) s s' := ⟨ss, us, h, List.suffix_refl _⟩

theorem Halted.mono {ids ids' : List String} (h : Halted ids s s') (hi : ids' <:+ ids) :
    Halted ids' s s' := by
  obtain ⟨ss, us, hw, hs⟩ := h
  exact ⟨ss, us, hw, hi.trans hs⟩

theorem Halted.failed {ids : List String} (h : Halted ids s s') : Failed s s' := by
  obtain ⟨ss, us, hw, _⟩ := h
  exact hw.failed

theorem typeName_ends (d : TypeDef) {ss : List Symbol} (h : Midway ss [] s s') :
    Ends (typeName d) s'
      (fun _ s'' => nameOf d.name = .ok d.symbol.id ∧ Midway (d.symbol :: ss) [] s s'')
      (fun _ s'' => s'' = s') := by
  refine (ofExcept_ends _).seq (fun _ _ hf => hf.1) ?_
  rintro id _ ⟨rfl, hid⟩
  refine (requireNew_ends id _).seq (fun _ _ hf => hf.1) ?_
  rintro _ _ ⟨rfl, hc, _⟩
  refine Ends.bind (Ends.get ?_)
  have hs : (⟨id, .udt [], d.exported, d.name.position⟩ : Symbol) = d.symbol := by
    simp [TypeDef.symbol, nameOf_eq_ok hid]
  have hid' : d.symbol.id = id := TypeDef.id_symbol hid
  split
  · exact Ends.throw rfl
  · next hu =>
    rw [hs]
    refine Ends.modify ⟨hid'.symm ▸ hid, h.declare rfl (hid'.symm ▸ hc) ?_⟩
    simpa [hid'] using hu

/-- The names of all types, the last one on top. -/
theorem typeNames_ends (ds : List TypeDef) {ss : List Symbol} (h : Midway ss [] s s') :
    Ends (ds.forM typeName) s'
      (fun _ s'' => (∀ d ∈ ds, nameOf d.name = .ok d.symbol.id) ∧
        Midway ((ds.map (·.symbol)).reverse ++ ss) [] s s'')
      (fun _ s'' => Halted (ss.map (·.id)) s s'') := by
  induction ds generalizing ss s' with
  | nil => exact Ends.pure ⟨by simp, h⟩
  | cons d ds ih =>
    refine (typeName_ends d h).seq (fun _ _ hf => hf ▸ h.halted) fun _ _ ⟨hd, h'⟩ => ?_
    refine (ih h').mono (fun _ _ hn => ⟨List.forall_mem_cons.mpr ⟨hd, hn.1⟩, ?_⟩)
      (fun _ _ hf => hf.mono (List.suffix_cons _ _))
    simpa using hn.2

/-- The fields of one type: the symbol and the list of members gain the same fields. -/
theorem typeFields_ends (fs : List Field) {as bs : List Symbol} {us : List Udt} {x : Symbol}
    {fields : List TypedName} {known : List Member} (h : Midway (as ++ x :: bs) us s s')
    (hx : x.kind = .udt fields)
    (hm : s.names.types.Ordered →
      TypedName.spelled s'.names.types fields = Member.spelled known) :
    Ends (typeFields x.id known fs) s'
      (fun members s'' => ∃ fields,
        Midway (as ++ { x with kind := .udt fields } :: bs) us s s'' ∧
        s'.names.types.Grown s''.names.types ∧
        (s.names.types.Ordered →
          TypedName.spelled s''.names.types fields = Member.spelled members) ∧
        members = known ++ fs.map (·.member) ∧
        ∀ m ∈ members, m ∈ known ∨
          ∃ f ∈ fs, Writes (Among ((as ++ x :: bs).map (·.id)) s) f.annotation m.typeId)
      (fun _ s'' => Halted ((as ++ x :: bs).map (·.id)) s s'') := by
  induction fs generalizing s' x fields known with
  | nil => exact Ends.pure ⟨fields, by rwa [← hx], .refl _, hm, by simp, fun m hk => .inl hk⟩
  | cons f fs ih =>
    refine (ofExcept_ends _).seq (fun _ _ hf => hf.1 ▸ h.halted) ?_
    rintro name _ ⟨rfl, hname⟩
    split
    · exact Ends.throw h.halted
    · refine (resolve_ends _).seq (fun _ _ hf => hf.1 ▸ h.halted) ?_
      rintro t _ ⟨rfl, hr⟩
      refine (intern_ends t _).seq (fun _ _ hf => hf.1 ▸ h.halted) ?_
      rintro k _ ⟨types, rfl, hi⟩
      obtain ⟨hg, _, hk⟩ := TypeTable.intern?_grown hi
      have h' := (h.noted hg).addField ⟨name, k⟩
      have hx' : x.addField ⟨name, k⟩ = { x with kind := .udt (fields ++ [⟨name, k⟩]) } := by
        simp [Symbol.addField, hx]
      rw [hx'] at h'
      refine Ends.bind (Ends.modify ?_)
      refine (ih h' rfl fun ho => ?_).mono (fun members s'' ⟨fields, hw, hg', hs, heq, hms⟩ => ?_)
        (fun _ _ hf => by simpa using hf)
      · have ho' := h.types.ordered ho
        have hm' := TypedName.spelled_mono ho' hg (hm ho)
        simp only [TypedName.spelled, Member.spelled, Registry.types_addField, withTypes,
          List.map_append, List.map_cons, List.map_nil] at hm' ⊢
        rw [hm', hk ho']
      · rw [Registry.types_addField] at hg'
        have hmember : f.member = ⟨name, t.typeId⟩ := by
          rw [Field.member, nameOf_eq_ok hname, ← hr.type, Option.getD_some]
        refine ⟨fields, hw, hg.trans hg', hs, by simp [heq, hmember], fun m hmem => ?_⟩
        rcases hms m hmem with hkn | ⟨f', hf', hwr⟩
        · rcases List.mem_append.mp hkn with hkn | hkn
          · exact .inl hkn
          · refine .inr ⟨f, List.mem_cons_self, t, hr.mono fun id => h.known, ?_⟩
            rw [List.mem_singleton.mp hkn]
        · refine .inr ⟨f', List.mem_cons_of_mem _ hf', ?_⟩
          simpa using hwr

/-- The binding is what the definition of a type makes. -/
structure Forms (d : TypeDef) (b : Binding) : Prop where
  named : nameOf d.name = .ok b.symbol.id
  kind : b.symbol.isUdt = true
  exported : b.symbol.exported = d.exported
  holding : b.holding = .udt d.udt

/-- The bindings are those of some types, each with fields as its definition writes them. -/
structure Defines (ds : List TypeDef) (s : Session) (bs : List Binding) : Prop where
  all : ∀ d ∈ ds, ∃ b ∈ bs, Forms d b
  holding : ∀ b ∈ bs, TypeBinding b
  made : ∀ b ∈ bs, ∃ d ∈ ds, Forms d b
  fields : ∀ b ∈ bs, ∀ u, b.udt? = some u → ∀ m ∈ u.fields, ∃ d ∈ ds, ∃ f ∈ d.fields,
    Writes (Among (bs.map (·.symbol.id)) s) f.annotation m.typeId

/-- The fields of all types: one symbol after the other gets its type. -/
theorem typeBodies_ends (all ds : List TypeDef) (bs : List Binding) (ids : List String)
    (hall : ∀ d ∈ ds, d ∈ all) (hd : ∀ d ∈ ds, nameOf d.name = .ok d.symbol.id)
    (h : Midway ((ds.map (·.symbol)).reverse ++ bs.map (·.symbol)) (bs.filterMap (·.udt?)) s s')
    (hids : ((ds.map (·.symbol)).reverse ++ bs.map (·.symbol)).map (·.id) = ids)
    (hmade : ∀ d ∈ all, d ∈ ds ∨ ∃ b ∈ bs, Forms d b)
    (hm : s.names.types.Ordered → ∀ b ∈ bs, b.Matches s'.names.types)
    (hu : ∀ b ∈ bs, TypeBinding b)
    (hn : ∀ b ∈ bs, ∃ d ∈ all, Forms d b)
    (hf : ∀ b ∈ bs, ∀ u, b.udt? = some u → ∀ m ∈ u.fields, ∃ d ∈ all, ∃ f ∈ d.fields,
      Writes (Among ids s) f.annotation m.typeId) :
    Ends (ds.forM typeBody) s'
      (fun _ s'' => ∃ bs, Midway (bs.map (·.symbol)) (bs.filterMap (·.udt?)) s s'' ∧
        bs.map (·.symbol.id) = ids ∧ Grown bs s s'' ∧ Defines all s bs)
      (fun _ s'' => Halted ids s s'') := by
  induction ds generalizing s' bs with
  | nil =>
    have hids' : bs.map (·.symbol.id) = ids := by
      rw [← hids]
      simp
    exact Ends.pure ⟨bs, h, hids', Midway.grown h hm hu,
      fun d hd => (hmade d hd).resolve_left List.not_mem_nil, hu, hn, hids'.symm ▸ hf⟩
  | cons d ds ih =>
    rw [List.forall_mem_cons] at hd hall
    refine Ends.bind ?_
    rw [typeBody, hd.1]
    refine Ends.bind (Ends.pure ?_)
    rw [List.map_cons, List.reverse_cons, List.append_assoc, List.singleton_append] at h hids
    refine (typeFields_ends d.fields h rfl fun _ => rfl).seq (fun _ _ hf => hids ▸ hf) ?_
    rintro members s₁ ⟨fields, hw, hg, hs, heq, hms⟩
    refine Ends.modify ?_
    have hudt : d.udt = ⟨d.symbol.id, members⟩ := by
      rw [heq, List.nil_append]
      rfl
    let b : Binding := ⟨{ d.symbol with kind := .udt fields }, .udt ⟨d.symbol.id, members⟩⟩
    have h' : Midway ((ds.map (·.symbol)).reverse ++ (b :: bs).map (·.symbol))
      ((b :: bs).filterMap (·.udt?)) s _ := hw.addUdt ⟨d.symbol.id, members⟩
    have hforms : Forms d b := ⟨hd.1, rfl, rfl, by rw [hudt]⟩
    refine ih (b :: bs) hall.2 hd.2 h' ?_ (fun d' hd' => ?_) (fun ho => ?_)
      (List.forall_mem_cons.mpr ⟨⟨members, rfl⟩, hu⟩)
      (List.forall_mem_cons.mpr ⟨⟨d, hall.1, hforms⟩, hn⟩)
      (List.forall_mem_cons.mpr ⟨fun u hu m hmem => ?_, hf⟩)
    · simpa [b] using hids
    · rcases hmade d' hd' with hd' | ⟨b', hb', hf'⟩
      · rcases List.mem_cons.mp hd' with rfl | hd'
        · exact .inr ⟨b, List.mem_cons_self, hforms⟩
        · exact .inl hd'
      · exact .inr ⟨b', List.mem_cons_of_mem _ hb', hf'⟩
    · refine List.forall_mem_cons.mpr ⟨⟨rfl, hs ho⟩, fun b hb => ?_⟩
      exact (hm ho b hb).mono (h.types.ordered ho) hg
    · cases hu
      rcases hms m hmem with hk | ⟨f, hfd, hwr⟩
      · cases hk
      · exact ⟨d, hall.1, f, hfd, hids ▸ hwr⟩

theorem typeSize_ends (d : TypeDef) :
    Ends (typeSize d) s (fun _ s' => s' = s) (fun _ s' => s' = s) := by
  refine (ofExcept_ends _).seq (fun _ _ hf => hf.1) ?_
  rintro id _ ⟨rfl, _⟩
  refine (sizeOf_ends _ _).seq (fun _ _ hf => hf.1) ?_
  rintro n _ ⟨rfl, _⟩
  exact Ends.pure rfl

theorem typeSizes_ends (ds : List TypeDef) :
    Ends (ds.forM typeSize) s (fun _ s' => s' = s) (fun _ s' => s' = s) := by
  induction ds generalizing s with
  | nil => exact Ends.pure rfl
  | cons d ds ih =>
    refine (typeSize_ends d).seq (fun _ _ hf => hf) ?_
    rintro _ _ rfl
    exact ih

/-- Fields and sizes of types whose names are declared. -/
theorem typeShapes_ends (ds : List TypeDef) (hd : ∀ d ∈ ds, nameOf d.name = .ok d.symbol.id)
    (h : Midway (ds.map (·.symbol)).reverse [] s s') :
    Ends (do
      ds.forM typeBody
      ds.forM typeSize) s' (fun _ s'' => ∃ bs, Grown bs s s'' ∧ Defines ds s bs)
      (fun _ s'' => Halted ((ds.map (·.symbol)).reverse.map (·.id)) s s'') := by
  have h₀ : Midway ((ds.map (·.symbol)).reverse ++ ([] : List Binding).map (·.symbol))
      (([] : List Binding).filterMap (·.udt?)) s s' := by simpa using h
  refine (typeBodies_ends ds ds [] _ (fun _ h => h) hd h₀ rfl (fun _ h => .inl h) (by simp) (by simp)
    (by simp) (by simp)).seq (fun _ _ hf => by simpa using hf)
    fun _ s₂ ⟨bs, hw, hids, hb, hdef⟩ => ?_
  have hend : Halted ((ds.map (·.symbol)).reverse.map (·.id)) s s₂ := by
    refine ⟨_, _, hw, ?_⟩
    have hi : (bs.map (·.symbol)).map (·.id) = (ds.map (·.symbol)).reverse.map (·.id) := by
      simpa [Function.comp_def] using hids
    exact hi ▸ List.suffix_refl _
  exact (typeSizes_ends ds).mono (fun _ _ hs => ⟨bs, hs ▸ hb, hdef⟩) (fun _ _ hs => hs ▸ hend)

/-- Types are declared all at once: storage and table gain the same types, or the check fails, at
the first name or with that name declared. -/
theorem types_ends (ds : List TypeDef) :
    Ends (types ds) s (fun _ s' => ∃ bs, Grown bs s s' ∧ Defines ds s bs)
      (fun f s' => ∃ d rest, ds = d :: rest ∧
        (s' = s ∧ typeName d s = .error f s ∨ Halted [d.symbol.id] s s')) := by
  unfold types
  cases ds with
  | nil => exact Ends.pure ⟨[], .refl s, by simp, by simp, by simp, by simp⟩
  | cons d ds =>
    refine Ends.bind (((typeName_ends d (.refl s)).and .run).seq ?_ ?_)
    · rintro f s' ⟨rfl, hr⟩
      exact ⟨d, ds, rfl, .inl ⟨rfl, hr⟩⟩
    · rintro _ s₁ ⟨⟨hd, h⟩, _⟩
      refine (typeNames_ends ds h).mono (fun _ s₂ ⟨hds, h₂⟩ => ?_)
        (fun _ _ hf => ⟨d, ds, rfl, .inr hf⟩)
      refine (typeShapes_ends (d :: ds) (List.forall_mem_cons.mpr ⟨hd, hds⟩) (by simpa using h₂)).mono
        (fun _ _ hb => hb) (fun _ _ hf => ⟨d, ds, rfl, .inr (hf.mono ?_)⟩)
      simp

theorem grows_types (inner : Bool) (ds : List TypeDef) : Grows inner (types ds) := fun _ _ => by
  refine (types_ends ds).mono (fun _ _ ⟨bs, h, _⟩ => ⟨bs, h⟩) ?_
  rintro f s' ⟨d, rest, _, ⟨rfl, _⟩ | hf⟩
  · exact .refl _
  · exact hf.failed

/-! ### What storage gains -/

/-- Storage gains these types, newest first, inside of the same body. -/
structure Shaped (us : List Udt) (s s' : Session) : Prop where
  memory : s'.memory = s.memory.grow s.body.isSome [] us
  body : s'.body = s.body

theorem Shaped.refl (s : Session) : Shaped [] s s := ⟨by simp, rfl⟩

theorem Shaped.trans {us us' : List Udt} {s s' s'' : Session} (h : Shaped us s s')
    (h' : Shaped us' s' s'') : Shaped (us' ++ us) s s'' where
  memory := by rw [h'.memory, h.body, h.memory, Tracker.grow_grow, List.append_nil]
  body := h'.body.trans h.body

theorem Noted.shaped (h : Noted s s') : Shaped [] s s' := ⟨by rw [h.memory_eq]; simp, h.same⟩

theorem typeName_shaped (d : TypeDef) :
    Ends (typeName d) s (fun _ s' => Shaped [] s s') (fun _ s' => Shaped [] s s') := by
  refine (typeName_ends d (.refl s)).mono (fun _ _ h => ?_) (fun _ _ h => h ▸ .refl s)
  exact ⟨h.2.memory, h.2.body⟩

/-- The members are those that the fields write. -/
theorem typeFields_shaped (id : String) (known : List Member) (fs : List Field) :
    Ends (typeFields id known fs) s
      (fun members s' => members = known ++ fs.map (·.member) ∧ Shaped [] s s')
      (fun _ s' => Shaped [] s s') := by
  induction fs generalizing s known with
  | nil => exact Ends.pure ⟨by simp, .refl s⟩
  | cons f fs ih =>
    refine (ofExcept_ends _).seq (fun _ _ h => h.1 ▸ .refl s) ?_
    rintro name _ ⟨rfl, hname⟩
    split
    · exact Ends.throw (.refl _)
    · refine (resolve_ends _).seq (fun _ _ h => h.1 ▸ .refl _) ?_
      rintro t _ ⟨rfl, hr⟩
      refine (notes_intern t _ _).seq (fun _ _ h => h.shaped) fun k s₁ h₁ => ?_
      refine Ends.bind (Ends.modify ((ih _).mono ?_ fun _ _ h => ?_))
      · rintro members s' ⟨rfl, h⟩
        have hmember : f.member = ⟨name, t.typeId⟩ := by
          rw [Field.member, nameOf_eq_ok hname, ← hr.type, Option.getD_some]
        exact ⟨by simp [hmember], h₁.shaped.trans ⟨h.memory, h.body⟩⟩
      · exact h₁.shaped.trans ⟨h.memory, h.body⟩

theorem typeBody_shaped (d : TypeDef) :
    Ends (typeBody d) s (fun _ s' => Shaped [d.udt] s s') (fun _ s' => Shaped [] s s') := by
  refine (ofExcept_ends _).seq (fun _ _ h => h.1 ▸ .refl s) ?_
  rintro id _ ⟨rfl, hid⟩
  refine (typeFields_shaped id [] d.fields).seq (fun _ _ h => h) ?_
  rintro members s₁ ⟨rfl, h₁⟩
  have hudt : d.udt = ⟨id, d.fields.map (·.member)⟩ := by
    rw [TypeDef.udt, nameOf_eq_ok hid, Option.getD_some]
  have hadd : Shaped [d.udt] s₁
      { s₁ with
        memory := s₁.memory.addUdt ⟨id, d.fields.map (·.member)⟩
        udts := if s₁.body.isNone then s₁.udts ++ [⟨id, d.fields.map (·.member)⟩] else s₁.udts } :=
    ⟨by rw [hudt, ← Tracker.addUdt_eq_grow], rfl⟩
  exact Ends.modify (h₁.trans hadd)

theorem typeBodies_shaped (ds : List TypeDef) :
    Ends (ds.forM typeBody) s (fun _ s' => Shaped (ds.map (·.udt)).reverse s s')
      (fun _ s' => ∃ us, Shaped us s s') := by
  induction ds generalizing s with
  | nil => exact Ends.pure (.refl s)
  | cons d ds ih =>
    refine (typeBody_shaped d).seq (fun _ _ h => ⟨[], h⟩) fun _ s₁ h₁ => ?_
    refine ih.mono (fun _ _ h => ?_) (fun _ _ ⟨us, h⟩ => ⟨_, h₁.trans h⟩)
    rw [List.map_cons, List.reverse_cons]
    exact h₁.trans h

theorem typeNames_shaped (ds : List TypeDef) :
    Ends (ds.forM typeName) s (fun _ s' => Shaped [] s s') (fun _ s' => Shaped [] s s') := by
  induction ds generalizing s with
  | nil => exact Ends.pure (.refl s)
  | cons d ds ih =>
    refine (typeName_shaped d).seq (fun _ _ h => h) fun _ s₁ h₁ => ?_
    exact ih.mono (fun _ _ h => h₁.trans h) (fun _ _ h => h₁.trans h)

/-- Types are all that storage gains when types are declared: on success those of the definitions. -/
theorem types_shaped (ds : List TypeDef) :
    Ends (types ds) s (fun _ s' => Shaped (ds.map (·.udt)).reverse s s')
      (fun _ s' => ∃ us, Shaped us s s') := by
  refine (typeNames_shaped ds).seq (fun _ _ h => ⟨[], h⟩) fun _ s₁ h₁ => ?_
  refine (typeBodies_shaped ds).seq (fun _ _ ⟨us, h⟩ => ⟨_, h₁.trans h⟩) fun _ s₂ h₂ => ?_
  have h := h₁.trans h₂
  rw [List.append_nil] at h
  exact (typeSizes_ends ds).mono (fun _ _ hs => hs ▸ h) (fun _ _ hs => ⟨_, hs ▸ h⟩)

end Check

end StoragePlan
