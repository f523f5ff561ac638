import StoragePlan.Proofs.BareTrees
import StoragePlan.Proofs.Conditions
import StoragePlan.Proofs.Files

/-!
What the items of a file make. Every binding that the check of a file leaves was made by one of its
items, and all of it but handles and places can be read off the item: the name, the sort, whether other
files see it, and what storage holds for it. So two files with the same items in another order make the
same declarations.
-/

namespace StoragePlan

namespace Item

/-- The name that an item declares. -/
def id? : Item → Option String
  | .importFile _ => none
  | .typeDef d => d.name.name?
  | .function d => d.name.name?
  | .varDecl d => d.name.name?
  | .constDecl d => d.name.name?

/-- What storage holds for the item among the types `us`. -/
def holding? (us : List Udt) : Item → Option Holding
  | .importFile _ => none
  | .typeDef d => some (.udt d.udt)
  | .function d => some (.element (.function d.signature))
  | .varDecl d => some (.element (d.element us))
  | .constDecl d => some (.element (d.element us))

/-- Whether files that import this one see the item. -/
def exported : Item → Bool
  | .importFile _ => false
  | .typeDef d => d.exported
  | .function d => d.exported
  | .varDecl d => d.exported
  | .constDecl d => d.exported

def isConstant : Item → Bool
  | .constDecl _ => true
  | _ => false

/-- Whether the item is a function, a variable or a constant. -/
def isValue (i : Item) : Bool := i.name?.isSome

/-- The binding is what the item declares among the types `us`. -/
structure Makes (us : List Udt) (i : Item) (b : Binding) : Prop where
  id : i.id? = some b.symbol.id
  isUdt : b.symbol.isUdt = !i.isValue
  holding : i.holding? us = some b.holding
  exported : b.symbol.exported = i.exported
  constant : Check.isConstant (some b.symbol) = i.isConstant

end Item

/-! ### Types that are active -/

/-- The same types are active under the same names, in whatever order. -/
def SameShapes (us us' : List Udt) : Prop :=
  us'.length = us.length ∧ ∀ id, us'.find? (·.id == id) = us.find? (·.id == id)

theorem SameShapes.of_perm {us us' : List Udt} (h : us'.Perm us) (hn : (us.map (·.id)).Nodup) :
    SameShapes us us' := by
  refine ⟨h.length_eq, fun id => ?_⟩
  have hn' : (us'.map (·.id)).Nodup := (h.map _).nodup_iff.mpr hn
  cases hu : us.find? (·.id == id) with
  | none => exact List.find?_eq_none.mpr fun u hm => List.find?_eq_none.mp hu u (h.mem_iff.mp hm)
  | some u =>
    obtain rfl : u.id = id := by simpa using List.find?_some hu
    exact find?_eq_of_nodup hn' (h.mem_iff.mpr (List.mem_of_find?_eq_some hu))

theorem SameShapes.refl (us : List Udt) : SameShapes us us := ⟨rfl, fun _ => rfl⟩

theorem SameShapes.symm {us us' : List Udt} (h : SameShapes us us') : SameShapes us' us :=
  ⟨h.1.symm, fun id => (h.2 id).symm⟩

theorem SameShapes.append {us us' vs vs' : List Udt} (h : SameShapes us us') (h' : SameShapes vs vs') :
    SameShapes (us ++ vs) (us' ++ vs') := by
  refine ⟨by rw [List.length_append, List.length_append, h.1, h'.1], fun id => ?_⟩
  rw [List.find?_append, List.find?_append, h.2, h'.2]

namespace ValueType

theorem find?_others (us : List Udt) (id other : String) :
    (others us id).find? (·.id == other) =
      if other = id then none else us.find? (·.id == other) := by
  rw [others, List.find?_filter]
  split
  · next h => exact List.find?_eq_none.mpr fun u _ => by simp [h]
  · next h =>
    congr 1
    funext u
    by_cases hu : u.id = other <;> simp [hu, h]

/-- The bytes of a type depend on what is active under each name. -/
theorem udtBytes_congr {us us' : List Udt}
    (h : ∀ id, us'.find? (·.id == id) = us.find? (·.id == id)) (id : String) :
    udtBytes us' id = udtBytes us id := by
  induction hn : us.length using Nat.strong_induction_on generalizing us us' id with
  | _ n ih =>
    subst hn
    rw [udtBytes, udtBytes]
    split
    · next hnone =>
      rw [h id] at hnone
      split
      · rfl
      · next u hu => cases hnone.symm.trans hu
    · next u hu =>
      rw [h id] at hu
      split
      · next hnone => cases hu.symm.trans hnone
      · next v hv =>
        cases hu.symm.trans hv
        have hothers : udtBytes (others us' id) = udtBytes (others us id) := by
          funext other
          refine ih _ (length_others_lt hu) (fun other => ?_) other rfl
          rw [find?_others, find?_others, h]
        rw [hothers]

theorem bytes_congr {us us' : List Udt} (h : SameShapes us us') (t : ValueType) :
    t.bytes us' = t.bytes us := by
  rw [bytes, bytes, funext (udtBytes_congr h.2)]

end ValueType

/-! ### Items of one form -/

theorem Annotation.type_bare (a : Annotation) : a.bare.type = a.type := by
  simp only [type, base, primitive?, baseName, isArray, bare, Token.bare, List.isEmpty_map,
    List.map_map]
  rfl

theorem Field.member_bare (f : Field) : f.bare.member = f.member := by
  rw [member, member, bare, Annotation.type_bare]
  rfl

theorem Field.members_bare (fs : List Field) :
    (fs.map Field.bare).map (·.member) = fs.map (·.member) := by
  rw [List.map_map]
  exact List.map_congr_left fun f _ => f.member_bare

theorem TypeDef.udt_bare (d : TypeDef) : d.bare.udt = d.udt := by
  rw [udt, udt, bare, Field.members_bare]
  rfl

theorem TypeDef.udt_congr {d d' : TypeDef} (h : d'.bare = d.bare) : d'.udt = d.udt := by
  rw [← udt_bare, h, udt_bare]

namespace Item

variable {i i' : Item} {us us' : List Udt}

theorem name?_bare (i : Item) : i.bare.name? = i.name?.map Token.bare := by
  cases i <;> rfl

theorem id?_bare (i : Item) : i.bare.id? = i.id? := by
  cases i <;> rfl

theorem isValue_bare (i : Item) : i.bare.isValue = i.isValue := by
  cases i <;> rfl

theorem holding?_bare (us : List Udt) (i : Item) : i.bare.holding? us = i.holding? us := by
  cases i with
  | importFile i => rfl
  | typeDef d => rw [bare, holding?, TypeDef.udt_bare, holding?]
  | function d =>
    simp only [bare, holding?, FunctionDef.signature, FunctionDef.bare, Field.members_bare,
      Option.map_map, Function.comp_def, Annotation.type_bare]
    rfl
  | varDecl d =>
    have hv : (d.value.map Expr.bare).bind (·.integer?) = d.value.bind (·.integer?) := by
      cases d.value with
      | none => rfl
      | some e => exact e.integer?_bare
    simp only [bare, holding?, VariableDecl.element, VariableDecl.bare, Annotation.element,
      Annotation.type_bare, hv]
    rfl
  | constDecl d =>
    simp only [bare, holding?, ConstantDecl.element, ConstantDecl.bare, Annotation.element,
      Annotation.type_bare, Expr.integer?_bare]
    rfl

theorem holding?_congr (h : SameShapes us us') (i : Item) : i.holding? us' = i.holding? us := by
  cases i with
  | varDecl d =>
    simp only [holding?, VariableDecl.element, Annotation.element, ValueType.bytes_congr h]
  | constDecl d =>
    simp only [holding?, ConstantDecl.element, Annotation.element, ValueType.bytes_congr h]
  | _ => rfl

theorem id?_congr (h : i'.bare = i.bare) : i'.id? = i.id? := by
  rw [← id?_bare, h, id?_bare]

theorem isValue_congr (h : i'.bare = i.bare) : i'.isValue = i.isValue := by
  rw [← isValue_bare, h, isValue_bare]

theorem holding?_of_bare (h : i'.bare = i.bare) (hs : SameShapes us us') :
    i'.holding? us' = i.holding? us := by
  rw [← holding?_bare, h, holding?_bare, holding?_congr hs]

/-- What one item makes, another of its form makes as well. -/
theorem Makes.congr {b : Binding} (hm : i.Makes us b) (h : i'.bare = i.bare)
    (hs : SameShapes us us') : i'.Makes us' b where
  id := (id?_congr h).trans hm.id
  isUdt := by rw [isValue_congr h, hm.isUdt]
  holding := (holding?_of_bare h hs).trans hm.holding
  exported := by
    have hb : ∀ j : Item, j.bare.exported = j.exported := fun j => by cases j <;> rfl
    rw [← hb i', h, hb, hm.exported]
  constant := by
    have hb : ∀ j : Item, j.bare.isConstant = j.isConstant := fun j => by cases j <;> rfl
    rw [← hb i', h, hb, hm.constant]

end Item

/-! ### What a check makes -/

/-- The bindings are those that the items make. -/
structure Made (us : List Udt) (is : List Item) (bs : List Binding) : Prop where
  source : ∀ b ∈ bs, ∃ i ∈ is, i.Makes us b
  all : ∀ i ∈ is, (i.holding? us).isSome → ∃ b ∈ bs, i.Makes us b

namespace Made

variable {us : List Udt} {is is' : List Item} {bs bs' : List Binding} {i : Item} {b : Binding}

theorem nil : Made us [] [] := ⟨by simp, by simp⟩

theorem cons (h : Made us is bs) (hm : i.Makes us b) : Made us (i :: is) (bs ++ [b]) where
  source b' hb := by
    rcases List.mem_append.mp hb with hb | hb
    · obtain ⟨j, hj, hmakes⟩ := h.source b' hb
      exact ⟨j, List.mem_cons_of_mem _ hj, hmakes⟩
    · exact ⟨i, List.mem_cons_self, List.mem_singleton.mp hb ▸ hm⟩
  all := List.forall_mem_cons.mpr ⟨fun _ => ⟨b, by simp, hm⟩, fun j hj hid => by
    obtain ⟨b', hb', hmakes⟩ := h.all j hj hid
    exact ⟨b', List.mem_append_left _ hb', hmakes⟩⟩

theorem append (h : Made us is bs) (h' : Made us is' bs') : Made us (is ++ is') (bs ++ bs') where
  source b hb := by
    rcases List.mem_append.mp hb with hb | hb
    · obtain ⟨i, hi, hmakes⟩ := h.source b hb
      exact ⟨i, List.mem_append_left _ hi, hmakes⟩
    · obtain ⟨i, hi, hmakes⟩ := h'.source b hb
      exact ⟨i, List.mem_append_right _ hi, hmakes⟩
  all i hi hid := by
    rcases List.mem_append.mp hi with hi | hi
    · obtain ⟨b, hb, hmakes⟩ := h.all i hi hid
      exact ⟨b, List.mem_append_left _ hb, hmakes⟩
    · obtain ⟨b, hb, hmakes⟩ := h'.all i hi hid
      exact ⟨b, List.mem_append_right _ hb, hmakes⟩

/-- Only the items that declare something count. -/
theorem of_mem (h : Made us is bs) (hsub : ∀ i ∈ is, i ∈ is')
    (hsup : ∀ i ∈ is', (i.holding? us).isSome → i ∈ is) : Made us is' bs where
  source b hb := by
    obtain ⟨i, hi, hmakes⟩ := h.source b hb
    exact ⟨i, hsub i hi, hmakes⟩
  all i hi hid := h.all i (hsup i hi hid) hid

theorem reverse (h : Made us is bs) : Made us is bs.reverse where
  source b hb := h.source b (List.mem_reverse.mp hb)
  all i hi hh := by
    obtain ⟨b, hb, hm⟩ := h.all i hi hh
    exact ⟨b, List.mem_reverse.mpr hb, hm⟩

end Made

theorem SourceFile.mem_types {f : SourceFile} {d : TypeDef} : d ∈ f.types ↔ .typeDef d ∈ f.items := by
  refine List.mem_filterMap.trans ⟨?_, fun h => ⟨_, h, rfl⟩⟩
  rintro ⟨i, hi, hd⟩
  cases i <;> cases hd
  exact hi

/-- The types among the bindings are those that the items define. -/
theorem Made.mem_udts_iff {us : List Udt} {f : SourceFile} {bs : List Binding}
    (h : Made us f.items bs) (u : Udt) :
    u ∈ bs.filterMap (·.udt?) ↔ ∃ d ∈ f.types, d.udt = u := by
  rw [List.mem_filterMap]
  constructor
  · rintro ⟨b, hb, hu⟩
    obtain ⟨i, hi, hm⟩ := h.source b hb
    have hh := hm.holding
    unfold Binding.udt? at hu
    split at hu
    · cases hu
    · next hholding =>
      cases hu
      rw [hholding] at hh
      cases i <;> cases hh
      exact ⟨_, SourceFile.mem_types.mpr hi, rfl⟩
  · rintro ⟨d, hd, rfl⟩
    obtain ⟨b, hb, hm⟩ := h.all _ (SourceFile.mem_types.mp hd) rfl
    refine ⟨b, hb, ?_⟩
    unfold Binding.udt?
    rw [← Option.some.inj hm.holding]

namespace Check

variable {s s' : Session} {us : List Udt}

theorem isConstant_some (x : Symbol) :
    isConstant (some x) = match x.kind with | .const _ => true | _ => false := by
  obtain ⟨id, kind, exported, p⟩ := x
  cases kind <;> rfl

/-- An item that is right declares what it makes, if it is a function, a variable or a constant, and
nothing otherwise. -/
theorem item_makes (i : Item) (hs : s.body = none) :
    Ends (item i) s
      (fun _ s' => if i.isValue then ∃ b, Grown [b] s s' ∧ i.Makes s.memory.udts b else s' = s)
      (fun _ _ => True) := by
  have hb : s.body.isSome = false := by simp [hs]
  cases i with
  | importFile _ => exact Ends.pure rfl
  | typeDef _ => exact Ends.pure rfl
  | function d =>
    refine (functionName_announces d hb).mono ?_ fun _ _ _ => trivial
    rintro _ s' ⟨b, hg, hsigns, hh, hx, args, returns, hkind⟩
    refine ⟨b, hg, nameOf_eq_ok hsigns.1, ?_, hh ▸ rfl, hx, ?_⟩
    · rw [Symbol.isUdt, hkind]
      rfl
    · rw [isConstant_some, hkind]
      rfl
  | varDecl d =>
    refine (globalVariable_announces d hb).mono ?_ fun _ _ _ => trivial
    rintro _ s' ⟨b, hg, hv, hx, h, hkind⟩
    refine ⟨b, hg, nameOf_eq_ok hv.named, ?_, hv.holding ▸ rfl, hx, ?_⟩
    · rw [Symbol.isUdt, hkind]
      rfl
    · rw [isConstant_some, hkind]
      rfl
  | constDecl d =>
    refine (constant_announces d).mono ?_ fun _ _ _ => trivial
    rintro _ s' ⟨b, hg, hv, hx, h, hkind⟩
    refine ⟨b, hg, nameOf_eq_ok hv.named, ?_, hv.holding ▸ rfl, hx, ?_⟩
    · rw [Symbol.isUdt, hkind]
      rfl
    · rw [isConstant_some, hkind]
      rfl

/-- The declaration of a function, a variable or a constant adds its element to storage. -/
theorem Grown.memory_of_holding {b : Binding} {e : Element} (h : Grown [b] s s')
    (hb : b.holding = .element e) : s'.memory = s.memory.grow s.body.isSome [e] [] := by
  have he : [b].filterMap (·.element?) = [e] := by simp [Binding.element?, hb]
  have hu : [b].filterMap (·.udt?) = [] := by simp [Binding.udt?, hb]
  rw [h.memory, Tracker.gain, he, hu]

/-- It leaves the active types alone. -/
theorem Grown.udts_of_holding {b : Binding} {e : Element} (h : Grown [b] s s')
    (hb : b.holding = .element e) : s'.memory.udts = s.memory.udts := by
  rw [h.memory_of_holding hb]
  rfl

end Check

theorem Item.Makes.element {us : List Udt} {i : Item} {b : Binding} (h : i.Makes us b)
    (hi : i.isValue = true) : ∃ e, b.holding = .element e := by
  have hh := h.holding
  cases i with
  | importFile i => cases hi
  | typeDef d => cases hi
  | _ => exact ⟨_, (Option.some.inj hh).symm⟩

namespace Check

variable {s s' : Session} {us : List Udt}

theorem items_make (is : List Item) (hs : s.body = none) :
    Ends (is.forM item) s
      (fun _ s' => ∃ bs, Grown bs s s' ∧ Made s.memory.udts (is.filter (·.isValue)) bs ∧
        s'.memory.udts = s.memory.udts)
      (fun _ _ => True) := by
  induction is generalizing s with
  | nil => exact Ends.pure ⟨[], .refl s, .nil, rfl⟩
  | cons i is ih =>
    refine (item_makes i hs).seq (fun _ _ h => h) fun _ s₁ h₁ => ?_
    rw [List.filter_cons]
    split at h₁
    · next hi =>
      obtain ⟨b, hg, hm⟩ := h₁
      obtain ⟨e, he⟩ := hm.element hi
      have hu := hg.udts_of_holding he
      have hs₁ : s₁.body = none := by simpa [hs] using hg.isSome_body
      refine (ih hs₁).mono (fun _ s₂ ⟨bs, hg', hmade, hu'⟩ => ?_) fun _ _ h => h
      rw [hu] at hmade hu'
      exact ⟨bs ++ [b], hg.trans hg', by rw [if_pos hi]; exact hmade.cons hm, hu'⟩
    · next hi =>
      subst h₁
      refine (ih hs).mono (fun _ s₂ h => ?_) fun _ _ h => h
      rwa [if_neg hi]

theorem Forms.makes {d : TypeDef} {b : Binding} (h : Forms d b) (us : List Udt) :
    (Item.typeDef d).Makes us b where
  id := nameOf_eq_ok h.named
  isUdt := h.kind
  holding := h.holding ▸ rfl
  exported := h.exported
  constant := by
    have hk := h.kind
    unfold Symbol.isUdt at hk
    split at hk
    · next hkind =>
      rw [isConstant_some, hkind]
      rfl
    · cases hk

theorem types_make (us : List Udt) (ds : List TypeDef) :
    Ends (types ds) s (fun _ s' => ∃ bs, Grown bs s s' ∧ Made us (ds.map .typeDef) bs ∧
        s'.memory.udts = (ds.map (·.udt)).reverse ++ s.memory.udts)
      (fun _ _ => True) := by
  refine ((types_ends ds).and (types_shaped ds)).mono ?_ fun _ _ _ => trivial
  rintro _ s' ⟨⟨bs, hg, hd⟩, hs⟩
  refine ⟨bs, hg, ⟨fun b hb => ?_, fun i hi _ => ?_⟩, by rw [hs.memory]; rfl⟩
  · obtain ⟨d, hmem, hforms⟩ := hd.made b hb
    exact ⟨_, List.mem_map_of_mem hmem, hforms.makes us⟩
  · obtain ⟨d, hmem, rfl⟩ := List.mem_map.mp hi
    obtain ⟨b, hb, hforms⟩ := hd.all d hmem
    exact ⟨b, hb, hforms.makes us⟩

end Check

/-- The types that are active once the types of a file are declared. -/
def SourceFile.udts (f : SourceFile) (us : List Udt) : List Udt := (f.types.map (·.udt)).reverse ++ us

namespace Check

variable {s s' : Session}

/-- The declarations of a file are what its items make. -/
theorem declarations_make {f : SourceFile} {s₁ s₂ : Session} (hs : s.body = none)
    (htypes : types f.types s = .ok () s₁) (hitems : f.items.forM item s₁ = .ok () s₂) :
    ∃ bs, Grown bs s s₂ ∧ Made (f.udts s.memory.udts) f.items bs ∧
      s₂.memory.udts = f.udts s.memory.udts := by
  obtain ⟨bs, hg, hmade, hu⟩ := (types_make (f.udts s.memory.udts) f.types).ok htypes
  have hs₁ : s₁.body = none := by simpa [hs] using hg.isSome_body
  obtain ⟨bs', hg', hmade', hu'⟩ := (items_make f.items hs₁).ok hitems
  rw [hu] at hmade' hu'
  refine ⟨bs' ++ bs, hg.trans hg', (hmade'.append hmade).of_mem (fun i hi => ?_) (fun i hi hh => ?_), hu'⟩
  · rcases List.mem_append.mp hi with hi | hi
    · exact (List.mem_filter.mp hi).1
    · obtain ⟨d, hd, rfl⟩ := List.mem_map.mp hi
      exact SourceFile.mem_types.mp hd
  · cases i with
    | importFile i => cases hh
    | typeDef d =>
      exact List.mem_append_right _ (List.mem_map_of_mem (SourceFile.mem_types.mpr hi))
    | _ => exact List.mem_append_left _ (List.mem_filter.mpr ⟨hi, rfl⟩)

/-- A file that is right declares what its items make. -/
theorem file_makes {f : SourceFile} (hs : s.body = none) (hrun : file f s = .ok () s') :
    ∃ bs, Grown bs s (reframed s.frames s') ∧ Made (f.udts s.memory.udts) f.items bs := by
  obtain ⟨_, s₁, htypes, hrest⟩ := bind_eq_ok hrun
  obtain ⟨_, s₂, hitems, hbodies⟩ := bind_eq_ok hrest
  obtain ⟨bs, hg, hmade, _⟩ := declarations_make hs htypes hitems
  have hs₂ : s₂.body = none := by simpa [hs] using hg.isSome_body
  have hg' : Grown [] s₂ (reframed s.frames s') :=
    hg.frames ▸ (functionBodies_ends f.functions hs₂).ok hbodies
  exact ⟨bs, hg.trans hg', hmade⟩

end Check

end StoragePlan
