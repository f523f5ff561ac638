import Mathlib.Data.List.Nodup
import Mathlib.Data.List.Perm.Basic
import StoragePlan.Proofs.RightItems

/-!
Files with the same items in another order, written at other places and with other numbers for their
nodes. What makes the declarations of a file right can be said of all of them together, so it is right of
the items in every order, in any session that knows the same types and has room for the same names.
-/

namespace StoragePlan

/-! ### Files with the same items -/

namespace SourceFile

/-- The items of the one file are those of the other in some order, but for places and numbers. -/
def Reorders (f f' : SourceFile) : Prop := (f'.items.map Item.bare).Perm (f.items.map Item.bare)

variable {f f' : SourceFile}

theorem Reorders.symm (h : Reorders f f') : Reorders f' f := List.Perm.symm h

theorem Reorders.item (h : Reorders f f') {i : Item} (hi : i ∈ f.items) :
    ∃ i' ∈ f'.items, i'.bare = i.bare := by
  have hm := (List.Perm.mem_iff h).mpr (List.mem_map_of_mem hi)
  exact List.mem_map.mp hm

/-- Items of one sort are those of the other file in some order, too. -/
theorem Reorders.filterMap (h : Reorders f f') {α : Type} {part : Item → Option α} {bare : α → α}
    (hp : ∀ i : Item, part i.bare = (part i).map bare) :
    ((f'.items.filterMap part).map bare).Perm ((f.items.filterMap part).map bare) := by
  have hbare : ∀ is : List Item,
      (is.filterMap part).map bare = (is.map Item.bare).filterMap part := by
    intro is
    rw [List.map_filterMap, List.filterMap_map]
    exact List.filterMap_congr fun i _ => (hp i).symm
  rw [hbare, hbare]
  exact List.Perm.filterMap part h

theorem Reorders.types (h : Reorders f f') :
    (f'.types.map TypeDef.bare).Perm (f.types.map TypeDef.bare) :=
  h.filterMap fun i => by cases i <;> rfl

theorem Reorders.typeDef (h : Reorders f f') : ∀ i ∈ f.types.map Item.typeDef,
    ∃ i' ∈ f'.types.map Item.typeDef, i'.bare = i.bare := by
  intro i hi
  obtain ⟨d, hd, rfl⟩ := List.mem_map.mp hi
  have hm := h.types.mem_iff.mpr (List.mem_map_of_mem hd)
  obtain ⟨d', hd', hbare⟩ := List.mem_map.mp hm
  exact ⟨_, List.mem_map_of_mem hd', congrArg Item.typeDef hbare⟩

theorem Reorders.functions (h : Reorders f f') :
    (f'.functions.map FunctionDef.bare).Perm (f.functions.map FunctionDef.bare) :=
  h.filterMap fun i => by cases i <;> rfl

theorem Reorders.imports (h : Reorders f f') :
    (f'.imports.map Import.bare).Perm (f.imports.map Import.bare) :=
  h.filterMap fun i => by cases i <;> rfl

end SourceFile

/-- What is in a list stands in every reordering of it, at another place. -/
theorem exists_of_perm_map {α β : Type} {bare : α → β} {xs xs' : List α}
    (h : (xs'.map bare).Perm (xs.map bare)) {x : α} (hx : x ∈ xs) : ∃ x' ∈ xs', bare x' = bare x :=
  List.mem_map.mp (h.mem_iff.mpr (List.mem_map_of_mem hx))

/-- What is so of every two members of a list is so in every reordering of it. -/
theorem pairwise_of_perm_map {α β : Type} {bare : α → β} {xs xs' : List α}
    (h : (xs'.map bare).Perm (xs.map bare)) {r : α → α → Prop} (r' : β → β → Prop)
    (hr : ∀ x y, r x y ↔ r' (bare x) (bare y)) (hsymm : ∀ x y, r' x y → r' y x)
    (hp : xs.Pairwise r) : xs'.Pairwise r := by
  have hmap : ∀ zs : List α, zs.Pairwise r ↔ (zs.map bare).Pairwise r' := by
    intro zs
    rw [List.pairwise_map]
    exact List.Pairwise.iff fun {x y} => hr x y
  rw [hmap] at hp ⊢
  exact (h.pairwise_iff fun {x y} => hsymm x y).mpr hp

namespace Check

open Annotation (type_congr)

variable {s t : Session} {known known' : String → Prop}

/-! ### Types -/

theorem Right.congr {a a' : Annotation} (h : Right known a) (hb : a'.bare = a.bare)
    (hk : ∀ id, known id → known' id) : Right known' a' := by
  unfold Right
  rw [type_congr hb]
  exact (Resolves.congr hb h).mono hk

theorem FieldRight.congr {f f' : Field} (h : FieldRight known f) (hb : f'.bare = f.bare)
    (hk : ∀ id, known id → known' id) : FieldRight known' f' := by
  obtain ⟨⟨id, hid⟩, hr⟩ := h
  exact ⟨⟨id, Token.nameOf_congr (congrArg Field.name hb) hid⟩,
    hr.congr (congrArg Field.annotation hb) hk⟩

theorem fieldsRight_congr {fs fs' : List Field} (h : ∀ f ∈ fs, FieldRight known f)
    (hb : fs'.map Field.bare = fs.map Field.bare) (hk : ∀ id, known id → known' id) :
    ∀ f ∈ fs', FieldRight known' f := by
  intro f' hf'
  obtain ⟨f, hf, hbare⟩ := exists_of_perm_map (List.Perm.of_eq hb.symm) hf'
  exact (h f hf).congr hbare.symm hk

theorem FieldsRight.congr {d d' : TypeDef} (h : FieldsRight d known) (hb : d'.bare = d.bare)
    (hk : ∀ id, known id → known' id) : FieldsRight d' known' := by
  have hfields : d'.fields.map Field.bare = d.fields.map Field.bare := congrArg TypeDef.fields hb
  refine ⟨fieldsRight_congr h.1 hfields hk, ?_⟩
  refine pairwise_of_perm_map (List.Perm.of_eq hfields) FieldsApart (fun f g => ?_)
    (fun f g hne => Ne.symm hne) h.2
  exact Iff.rfl

/-- Types that are right have different names. -/
theorem TypesRight.nodup {ds : List TypeDef} (h : TypesRight ds s) :
    ((ds.map (·.udt)).map (·.id)).Nodup := by
  rw [List.map_map, List.Nodup, List.pairwise_map]
  refine h.apart.imp_of_mem fun {d d'} hd hd' hne heq => hne ?_
  obtain ⟨id, hid, _⟩ := h.named d hd
  obtain ⟨id', hid', _⟩ := h.named d' hd'
  have hsame : id = id' := by
    simpa [TypeDef.udt, nameOf_eq_ok hid, nameOf_eq_ok hid'] using heq
  rw [nameOf_eq_ok hid, nameOf_eq_ok hid', hsame]

/-- Types that are right in one session are so in every order in another that knows the same. -/
theorem TypesRight.reorder {ds ds' : List TypeDef} (h : TypesRight ds s)
    (hb : (ds'.map TypeDef.bare).Perm (ds.map TypeDef.bare))
    (hk : ∀ id, Known s.names s.file id → Known t.names t.file id)
    (hn : ∀ d ∈ ds, ∀ id, d.name.name? = some id → New t id)
    (hs : SameShapes s.memory.udts t.memory.udts) : TypesRight ds' t := by
  have hudts : (ds'.map (·.udt)).Perm (ds.map (·.udt)) := by
    have hmap : ∀ zs : List TypeDef, zs.map (·.udt) = (zs.map TypeDef.bare).map (·.udt) := by
      intro zs
      rw [List.map_map]
      exact List.map_congr_left fun d _ => d.udt_bare.symm
    rw [hmap ds', hmap ds]
    exact hb.map _
  constructor
  case named =>
    intro d' hd'
    obtain ⟨d, hd, hbare⟩ := exists_of_perm_map hb.symm hd'
    obtain ⟨id, hid, _, hu⟩ := h.named d hd
    refine ⟨id, Token.nameOf_congr (congrArg TypeDef.name hbare.symm) hid,
      hn d hd id (nameOf_eq_ok hid), (hs.2 id).trans hu⟩
  case apart =>
    refine pairwise_of_perm_map hb NamedApart (fun d d' => ?_) (fun d d' hne => Ne.symm hne)
      h.apart
    exact Iff.rfl
  case fields =>
    intro d' hd'
    obtain ⟨d, hd, hbare⟩ := exists_of_perm_map hb.symm hd'
    refine (h.fields d hd).congr hbare.symm fun id hid => hid.imp (fun hm => ?_) (hk id)
    have hids : (ds'.map (·.udt.id)).Perm (ds.map (·.udt.id)) := by
      simpa [Function.comp_def] using hudts.map (·.id)
    exact hids.mem_iff.mpr hm
  case sized =>
    intro d' hd'
    obtain ⟨d, hd, hbare⟩ := exists_of_perm_map hb.symm hd'
    obtain ⟨n, hsize⟩ := h.sized d hd
    have hperm : ((ds'.map (·.udt)).reverse).Perm (ds.map (·.udt)).reverse :=
      (List.reverse_perm _).trans (hudts.trans (List.reverse_perm _).symm)
    have hnodup : ((ds.map (·.udt)).reverse.map (·.id)).Nodup := by
      rw [List.map_reverse, List.nodup_reverse]
      exact h.nodup
    have hshapes : SameShapes (s.memory.grow false [] (ds.map (·.udt)).reverse).udts
        (t.memory.grow false [] (ds'.map (·.udt)).reverse).udts :=
      (SameShapes.of_perm hperm hnodup).append hs
    refine ⟨n, ?_⟩
    rw [TypeDef.udt_congr hbare.symm, hshapes.size]
    exact hsize

/-! ### Functions, variables and constants -/

theorem LiteralRight.congr {target : ValueType} {e e' : Expr} (h : LiteralRight target e)
    (hb : e'.bare = e.bare) : LiteralRight target e' := by
  obtain ⟨id, token, ty, rfl, hty, ha⟩ := h
  obtain ⟨id', token', rfl, hbare⟩ := Expr.of_bare_literal hb
  exact ⟨id', token', ty, rfl, ValueType.ofLiteral_congr hbare hty, ha⟩

section Fits

variable {m m' : Tracker} (hk : ∀ id, known id → known' id) (hs : SameShapes m.udts m'.udts)

include hk

theorem SignatureRight.congr {d d' : FunctionDef} (h : SignatureRight known d)
    (hb : d'.bare = d.bare) : SignatureRight known' d' where
  params := fieldsRight_congr h.params (congrArg FunctionDef.params hb) hk
  returns a' ha' := by
    have hmap : d'.returns.map Annotation.bare = d.returns.map Annotation.bare :=
      congrArg FunctionDef.returns hb
    rw [ha', Option.map_some] at hmap
    obtain ⟨a, ha, hbare⟩ := Option.map_eq_some_iff.mp hmap.symm
    exact (h.returns a ha).congr hbare.symm hk

include hs

theorem ValueRight.congr {a a' : Annotation} {init init' : Option Expr}
    (h : ValueRight known m a init) (ha : a'.bare = a.bare)
    (hi : init'.map Expr.bare = init.map Expr.bare) : ValueRight known' m' a' init' where
  type := h.type.congr ha hk
  sized := by
    rw [type_congr ha, hs.size]
    exact h.sized
  value e' he' := by
    rw [he', Option.map_some] at hi
    obtain ⟨e, he, hbare⟩ := Option.map_eq_some_iff.mp hi.symm
    rw [type_congr ha]
    exact (h.value e he).congr hbare.symm

theorem ItemFits.congr {i i' : Item} (h : ItemFits known m i) (hb : i'.bare = i.bare) :
    ItemFits known' m' i' := by
  cases i with
  | importFile i =>
    cases i' with
    | importFile i' => trivial
    | _ => cases hb
  | typeDef d =>
    cases i' with
    | typeDef d' => trivial
    | _ => cases hb
  | function d =>
    cases i' with
    | function d' => exact SignatureRight.congr hk h (Item.function.inj hb)
    | _ => cases hb
  | varDecl d =>
    cases i' with
    | varDecl d' =>
      have hd := Item.varDecl.inj hb
      exact ValueRight.congr hk hs h (congrArg VariableDecl.annotation hd) (congrArg VariableDecl.value hd)
    | _ => cases hb
  | constDecl d =>
    cases i' with
    | constDecl d' =>
      have hd := Item.constDecl.inj hb
      exact ValueRight.congr hk hs h (congrArg ConstantDecl.annotation hd)
        (congrArg (fun d => some (ConstantDecl.value d)) hd)
    | _ => cases hb

end Fits

/-- An item that is right in one session is so in another that knows the same types and has the name
free. -/
theorem ItemRight.congr {i i' : Item} (h : ItemRight i s) (hb : i'.bare = i.bare)
    (hk : ∀ id, Known s.names s.file id → Known t.names t.file id)
    (hs : SameShapes s.memory.udts t.memory.udts)
    (hn : ∀ name ∈ i.name?, ∀ id, name.name? = some id → New t id) : ItemRight i' t := by
  refine ⟨fun name' hname' => ?_, ItemFits.congr hk hs h.2 hb⟩
  have hmap : i'.name?.map Token.bare = i.name?.map Token.bare := by
    rw [← Item.name?_bare, hb, Item.name?_bare]
  rw [hname', Option.map_some] at hmap
  obtain ⟨name, hname, hbare⟩ := Option.map_eq_some_iff.mp hmap.symm
  obtain ⟨id, hid, _⟩ := h.1 name hname
  exact ⟨id, Token.nameOf_congr hbare.symm hid, hn name hname id (nameOf_eq_ok hid)⟩

/-- Items with different names have them in every order. -/
theorem itemsApart_of_reorders {f f' : SourceFile} (h : f.Reorders f')
    (hp : f.items.Pairwise ItemsApart) : f'.items.Pairwise ItemsApart := by
  refine pairwise_of_perm_map h ItemsApart (fun i j => ?_)
    (fun i j hne t ht t' ht' => (hne t' ht' t ht).symm) hp
  unfold ItemsApart
  rw [Item.name?_bare, Item.name?_bare]
  cases i.name? <;> cases j.name? <;> simp [Token.name?, Token.bare]

end Check

end StoragePlan
