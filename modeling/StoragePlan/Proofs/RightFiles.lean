import Mathlib.Algebra.Order.BigOperators.Group.List
import Mathlib.Algebra.Order.Group.Nat
import StoragePlan.Proofs.Independence
import StoragePlan.Proofs.ReorderedChecks

/-!
A file that is right in one project is right in the other. Where a compilation has come to an end, there
is room for all globals, and names that are used by two files were used there, too. So in a second project,
in which the same files are compiled in another order and with their items in other orders, each name is as
free as it was and there is as much room as is needed: the declarations of the file are right again, and
after them its bodies.
-/

namespace StoragePlan

open Relation Project

/-! ### Free names and room -/

namespace Coherent

variable {l : Ledger} {s : Session} {id : String}

theorem atTop (h : Coherent l s) (hl : l.scopes = []) (hb : s.body = none) : Check.AtTop s where
  body := hb
  table := by
    obtain ⟨t, ht⟩ := Option.isSome_iff_exists.mp h.table
    exact ⟨t, ht, by rw [h.scopes t ht, hl, List.map_nil]⟩

/-- A name that no declaration of the file has, and no function, variable or constant of any file, is free
at the top level. -/
theorem new_of_ne (h : Coherent l s) (hl : l.scopes = [])
    (hown : ∀ b, (s.file, b) ∈ l.globals → b.symbol.id ≠ id)
    (hvalue : ∀ f b, (f, b) ∈ l.globals → b.symbol.isUdt = false → b.symbol.id ≠ id) :
    Check.New s id := by
  constructor
  · obtain ⟨t, ht⟩ := Option.isSome_iff_exists.mp h.table
    rw [Registry.current?, ht, Option.bind_some, SymbolTable.current?, h.scopes t ht, hl, List.map_nil]
    refine List.find?_eq_none.mpr fun x hx => ?_
    rw [h.symbols s.file t ht] at hx
    obtain ⟨b, hb, rfl⟩ := List.mem_map.mp hx
    simpa using hown b (Ledger.mem_ofFile.mp hb)
  · intro _
    rw [← Option.map_eq_none_iff, Tracker.find?_element, h.stack, Ledger.locals, hl, h.dataSegment]
    refine List.find?_eq_none.mpr fun e he => ?_
    obtain ⟨⟨f, b⟩, hb, helement⟩ := List.mem_filterMap.mp he
    have hm := h.sound b (.inr ⟨f, hb⟩)
    simpa [Element.hasId, hm.id_element helement] using hvalue f b hb (hm.isUdt_of_element? helement)

end Coherent

/-- No global has a name that is free outside of functions. -/
theorem Check.New.not_mem {s : Session} {id : String} (h : Check.New s id) (hb : s.body = none)
    {e : Element} (he : e ∈ s.memory.dataSegment) : e.id ≠ some id := by
  have hnone : (s.memory.find? id).map (·.element) = none := by rw [h.2 hb, Option.map_none]
  rw [Tracker.find?_element, Option.or_eq_none_iff] at hnone
  simpa [Element.hasId] using List.find?_eq_none.mp hnone.2 e he

/-- Elements of different names take no more bytes than all among which they are. -/
theorem bytesOf_le_of_subset {es es' : List Element} (hn : (es.map (·.id)).Nodup) (hs : es ⊆ es') :
    bytesOf es ≤ bytesOf es' := by
  obtain ⟨es'', hperm, hsub⟩ := List.subperm_of_subset (hn.of_map _) hs
  calc bytesOf es
    _ = bytesOf es'' := ((hperm.map _).sum_eq).symm
    _ ≤ bytesOf es' := (hsub.map _).sum_le_sum fun _ _ => Nat.zero_le _

namespace Item

/-- The element of a function, a variable or a constant among the types `us`. -/
def element? (us : List Udt) (i : Item) : Option Element :=
  match i.holding? us with
  | some (.element e) => some e
  | _ => none

theorem bytesOf_elements (us : List Udt) (is : List Item) :
    bytesOf (is.filterMap (·.element? us)) = (is.map (·.bytes us)).sum := by
  induction is with
  | nil => rfl
  | cons i is ih =>
    rw [List.map_cons, List.sum_cons, ← ih, List.filterMap_cons]
    cases i <;> simp [element?, holding?, bytes, Element.function, VariableDecl.element,
      ConstantDecl.element, Annotation.element, Element.named]

theorem id_of_element? {us : List Udt} {i : Item} {e : Element} (h : i.element? us = some e)
    {t : Token} (ht : t ∈ i.name?) {id : String} (hid : t.name? = some id) : e.id = some id := by
  cases i <;> cases h <;> cases ht <;>
    simp [Element.function, FunctionDef.signature, VariableDecl.element, ConstantDecl.element,
      Annotation.element, Element.named, hid]

theorem name?_of_element? {us : List Udt} {i : Item} {e : Element} (h : i.element? us = some e) :
    ∃ t, t ∈ i.name? := by
  cases i <;> cases h <;> exact ⟨_, rfl⟩

end Item

namespace Project

variable {lib lib' : Library} {g g' gf : List (String × Binding)} {p q pf : Project}
  {f f' file id : String} {b : Binding}

/-- Behind the name of a function, a variable or a constant of a verified file is a declaration. -/
theorem Portrayed.binding_of_value (h : Portrayed lib g p) (hf : (p.verified? f).isSome)
    (hv : lib.HasValue f id) : ∃ b, (f, b) ∈ g ∧ b.symbol.isUdt = false ∧ b.symbol.id = id := by
  obtain ⟨source, hl, i, hi, t, ht, hid⟩ := hv
  obtain ⟨source', us, hp⟩ := h.portrait f hf
  obtain rfl : source = source' := Except.ok.inj (hl.symm.trans hp.loaded)
  have hvalue : i.isValue = true := Option.isSome_iff_exists.mpr ⟨t, ht⟩
  obtain ⟨b, hb, hm⟩ := hp.made.all i hi (by cases i <;> first | rfl | cases ht)
  refine ⟨b, Ledger.mem_ofFile.mp hb, by rw [hm.isUdt, hvalue]; rfl, ?_⟩
  exact Option.some.inj (by rw [← hm.id, Item.id?_of_name? ht, hid])

/-- Storage holds the elements of a verified file. -/
theorem Portrait.mem_dataSegment {source : SourceFile} {us : List Udt} {i : Item} {e : Element}
    (hp : Portrait lib g p f source us) (h : Portrayed lib g p) (hi : i ∈ source.items)
    (he : i.element? us = some e) : e ∈ p.memory.dataSegment := by
  have hsome : (i.holding? us).isSome := by
    unfold Item.element? at he
    split at he
    · next hh => simp [hh]
    · cases he
  obtain ⟨b, hb, hm⟩ := hp.made.all i hi hsome
  rw [h.dataSegment]
  refine List.mem_filterMap.mpr ⟨(f, b), Ledger.mem_ofFile.mp hb, ?_⟩
  rw [Item.element?, hm.holding] at he
  rw [Binding.element?, ← he]
  cases b.holding <;> rfl

/-- What the declarations of a file leave for the bodies. -/
theorem Portrayed.declared (h : Portrayed lib g p) (hs : Steps lib .empty p) {source : SourceFile}
    {udts : List Udt} (hr : Ready lib file source udts p) {s₁ s₂ : Session}
    (htypes : Check.types source.types (p.session file udts) = .ok () s₁)
    (hitems : source.items.forM Check.item s₁ = .ok () s₂) :
    Check.Declared ((source.types.map (·.udt)).reverse ++ udts.reverse) s₂ ∧ s₂.names.types.Tidy := by
  have hbegins : Check.Begins udts.reverse (p.session file udts) := h.quiet.begins file udts
  have hcovered : (p.session file udts).names.Covered :=
    (covered_steps (afterAll_covered []) hs).addFile file
  have hlegible : (p.session file udts).Legible := (legible_empty.steps hs).start hr.types
  exact ⟨Check.declared_of_items hbegins hcovered rfl htypes hitems,
    (Check.declared_keys (load_sound hr.loaded) hlegible rfl htypes hitems).1.types⟩

/-! ### The end of a compilation -/

/-- The project knows all files, the address space has room for all globals, and no type has the name of a
function, a variable or a constant. -/
structure Ended (lib : Library) (g : List (String × Binding)) (p : Project) : Prop where
  portrayed : Portrayed lib g p
  room : bytesOf p.memory.dataSegment ≤ maxStorage
  separate : lib.Separate fun f => (p.verified? f).isSome

/-- Only one file has a function, a variable or a constant of one name. -/
theorem Ended.once (h : Ended lib g p) (hf : (p.verified? f).isSome) (hf' : (p.verified? f').isSome)
    (hv : lib.HasValue f id) (hv' : lib.HasValue f' id) : f = f' := by
  obtain ⟨b, hb, hu, hid⟩ := h.portrayed.binding_of_value hf hv
  obtain ⟨b', hb', hu', hid'⟩ := h.portrayed.binding_of_value hf' hv'
  exact (Ledger.value_unique h.portrayed.dataSegment h.portrayed.distinct h.portrayed.sound hb hb' hu hu'
    (hid.trans hid'.symm)).1

/-- Both projects are about to check the same file, and another one has verified this file and all that
they have verified. -/
structure Retraced (lib lib' : Library) (g g' gf : List (String × Binding)) (p q pf : Project)
    (file : String) (source source' : SourceFile) (udts udts' : List Udt) : Prop
    extends Paired lib lib' g g' p q file source source' udts udts' where
  ended : Ended lib gf pf
  meant : (pf.verified? file).isSome
  earlier : ∀ f, (p.verified? f).isSome → (pf.verified? f).isSome
  earlier' : ∀ f, (q.verified? f).isSome → (pf.verified? f).isSome
  steps : Steps lib .empty p
  steps' : Steps lib' .empty q

namespace Retraced

variable {source source' : SourceFile} {udts udts' us us' : List Udt} {bs bs' : List Binding}
  {is is' : List Item} {s t : Session}
  (h : Retraced lib lib' g g' gf p q pf file source source' udts udts')

include h

/-- What is in view is a type or not as the library says. -/
theorem sort_of_inView (hs : Check.Grown bs (p.session file udts) s) (hm : Made us is bs)
    (hsub : ∀ i ∈ is, i ∈ source.items) (hb : s.InView ⟨g ++ bs.reverse.map (file, ·), []⟩ f b) :
    (pf.verified? f).isSome ∧ (b.symbol.isUdt = true → lib.HasType f b.symbol.id) ∧
      (b.symbol.isUdt = false → lib.HasValue f b.symbol.id) := by
  obtain ⟨rfl, hmem⟩ | ⟨hmem, _, _⟩ := (h.inView_iff hs).mp hb
  · exact ⟨h.meant, hm.hasType hsub h.ready.loaded hmem, hm.hasValue hsub h.ready.loaded hmem⟩
  · exact ⟨h.earlier f (h.left.owners f b hmem), h.left.hasType hmem, h.left.hasValue hmem⟩

/-- The checks go on in counterparts of each other. -/
theorem counterparts (hs : Check.Grown bs (p.session file udts) s)
    (ht : Check.Grown bs' (q.session file udts') t) (hm : Made us is bs) (hm' : Made us' is' bs')
    (his : ∀ i ∈ is, ∃ i' ∈ is', i'.bare = i.bare) (his' : ∀ i ∈ is', ∃ i' ∈ is, i'.bare = i.bare)
    (hus : SameShapes us us') (hsub : ∀ i ∈ is, i ∈ source.items) :
    Counterparts ⟨g ++ bs.reverse.map (file, ·), []⟩ ⟨g' ++ bs'.reverse.map (file, ·), []⟩ s t where
  left := h.coherent hs
  right := h.symm.coherent ht
  top := rfl
  top' := rfl
  tables _ _ := h.isSome_table? hs
  tables' _ _ := h.symm.isSome_table? ht
  there _ _ := h.there hs ht fun _ => hm.counterpart hm' his hus
  back f b hb := by
    obtain ⟨b', hb', ha⟩ := h.symm.there ht hs (fun _ => hm'.counterpart hm his' hus.symm) hb
    exact ⟨b', hb', ha.symm⟩
  apart f b f' b' hb hb' hid := by
    obtain ⟨hf, htype, hvalue⟩ := h.sort_of_inView hs hm hsub hb
    obtain ⟨hf', htype', hvalue'⟩ := h.sort_of_inView hs hm hsub hb'
    have hapart := h.ended.separate
    cases hu : b.symbol.isUdt <;> cases hu' : b'.symbol.isUdt
    · rfl
    · exact absurd (hvalue hu) (hapart f' f _ hf' hf (hid ▸ htype' hu'))
    · exact absurd (hvalue' hu') (hapart f f' _ hf hf' (hid ▸ htype hu))
    · rfl

/-! ### Types -/

theorem new_of_type (hid : lib.HasType file id) : Check.New (q.session file udts') id := by
  have hstart := h.right.toBooked.start h.ready'
  refine hstart.new_of_ne rfl (fun b hb => absurd hb h.symm.fresh) fun f b hb hu heq => ?_
  have hv := h.reordered.symm.hasValue (h.right.hasValue hb hu)
  exact h.ended.separate file f id h.meant (h.earlier' f (h.right.owners f b hb)) hid (heq ▸ hv)

theorem types_again (hrun : Check.types source.types (p.session file udts) = .ok () s) :
    ∃ t, Check.types source'.types (q.session file udts') = .ok () t := by
  have htop := (h.left.toBooked.start h.ready).atTop rfl rfl
  have htop' := (h.right.toBooked.start h.ready').atTop rfl rfl
  have hc := h.counterparts (.refl _) (.refl _) .nil .nil (by simp) (by simp) h.shapes (by simp)
  have hright := (Check.passes_types_iff htop).mp ⟨_, _, hrun⟩
  have hagain := hright.reorder h.items.types (fun id => (hc.known_iff id).mpr)
    (fun d hd id hid => h.new_of_type ⟨source, h.ready.loaded, d, hd, hid⟩) h.shapes
  obtain ⟨_, t, hrun'⟩ := (Check.passes_types_iff htop').mpr hagain
  exact ⟨t, hrun'⟩

/-! ### Functions, variables and constants -/

section Items

variable (hs : Check.Grown bs (p.session file udts) s) (ht : Check.Grown bs' (q.session file udts') t)
  (hm : Made us (source.types.map .typeDef) bs) (hm' : Made us' (source'.types.map .typeDef) bs')

include ht hm'

/-- The name of a function, a variable or a constant of the file is free after the types. -/
theorem new_of_value (hid : lib.HasValue file id) : Check.New t id := by
  have hfile : t.file = file := ht.file
  refine (h.symm.coherent ht).new_of_ne rfl (fun b hb heq => ?_) fun f b hb hu heq => ?_
  · rw [hfile] at hb
    obtain hmem | ⟨_, hmem⟩ := Paired.mem_globals_iff.mp hb
    · exact h.symm.fresh hmem
    · have htype :=
        hm'.hasType SourceFile.mem_of_types h.ready'.loaded hmem (hm'.isUdt_of_types hmem)
      exact h.ended.separate file file id h.meant h.meant (heq ▸ h.reordered.symm.hasType htype) hid
  · obtain hmem | ⟨_, hmem⟩ := Paired.mem_globals_iff.mp hb
    · have hv := heq ▸ h.reordered.symm.hasValue (h.right.hasValue hmem hu)
      obtain rfl := h.ended.once (h.earlier' f (h.right.owners f b hmem)) h.meant hv hid
      exact h.symm.fresh hmem
    · exact absurd (hm'.isUdt_of_types hmem) (by simp [hu])

omit ht hm'
include hs hm

theorem unshadowed : Check.Unshadowed source.items s := by
  rintro i hi name hname id hid ⟨x, hx, hu⟩
  obtain ⟨f, b, hview, rfl, rfl⟩ := (h.coherent hs).inView_of_lookup? rfl hx
  obtain ⟨hf, htype, _⟩ := h.sort_of_inView hs hm SourceFile.mem_of_types hview
  exact h.ended.separate f file _ hf h.meant (htype hu)
    ⟨source, h.ready.loaded, i, hi, name, hname, hid⟩

omit hs hm
include ht hm'

/-- There is room for the globals of the file again. -/
theorem room_again (hu' : t.memory.udts = source'.udts (q.session file udts').memory.udts)
    (hright : ∀ i ∈ source'.items, Check.ItemRight i t)
    (hapart : source'.items.Pairwise Check.ItemsApart) :
    bytesOf t.memory.dataSegment + (source'.items.map (·.bytes t.memory.udts)).sum ≤ maxStorage := by
  have hbody : t.body = none := by simpa [session, Session.start] using ht.isSome_body
  have hname : ∀ i ∈ source'.items, ∀ e, i.element? t.memory.udts = some e →
      ∃ name ∈ i.name?, name.name? = e.id ∧ ∀ e' ∈ t.memory.dataSegment, e'.id ≠ e.id := by
    intro i hi e he
    obtain ⟨name, hn⟩ := Item.name?_of_element? he
    obtain ⟨id, hid, hnew⟩ := (hright i hi).1 name hn
    have heid := Item.id_of_element? he hn (nameOf_eq_ok hid)
    rw [heid]
    exact ⟨name, hn, nameOf_eq_ok hid, fun e' => hnew.not_mem hbody⟩
  -- What is stored so far and what the file adds have names of their own and are all stored in the end.
  rw [← Item.bytesOf_elements, ← bytesOf_append]
  refine (bytesOf_le_of_subset ?_ ?_).trans h.ended.room
  · rw [List.map_append, List.nodup_append]
    refine ⟨(h.symm.coherent ht).distinct, ?_, ?_⟩
    · rw [List.Nodup, List.pairwise_map, List.pairwise_filterMap]
      refine hapart.imp_of_mem fun hi hj hne e he e' he' heq => ?_
      obtain ⟨name, hn, hid, _⟩ := hname _ hi e he
      obtain ⟨name', hn', hid', _⟩ := hname _ hj e' he'
      exact hne name hn name' hn' (by rw [hid, hid', heq])
    · intro x hx y hy
      obtain ⟨e, he, rfl⟩ := List.mem_map.mp hx
      obtain ⟨e', he', rfl⟩ := List.mem_map.mp hy
      obtain ⟨i, hi, hie⟩ := List.mem_filterMap.mp he'
      obtain ⟨_, _, _, hne⟩ := hname i hi e' hie
      exact hne e he
  · intro e he
    rcases List.mem_append.mp he with he | he
    · rw [h.symm.dataSegment_of_types ht hm'] at he
      exact h.right.mem_dataSegment h.ended.portrayed h.reordered.symm h.earlier' he
    · obtain ⟨i', hi', hie⟩ := List.mem_filterMap.mp he
      obtain ⟨i, hi, hbare⟩ := h.items.symm.item hi'
      obtain ⟨source₀, us₀, hp⟩ := h.ended.portrayed.portrait file h.meant
      obtain rfl : source = source₀ := Except.ok.inj (h.ready.loaded.symm.trans hp.loaded)
      have hshapes := h.reordered.symm.sameShapes (h.symm.active_of_udts ht hu') hp.active
      have hsame : i.element? us₀ = some e := by
        rw [← hie, Item.element?, Item.holding?_of_bare hbare hshapes, Item.element?]
      exact hp.mem_dataSegment h.ended.portrayed hi hsame

end Items

theorem room : bytesOf p.memory.dataSegment ≤ maxStorage :=
  (bytesOf_le_of_subset h.left.distinct fun _ he =>
    h.left.mem_dataSegment h.ended.portrayed (.refl lib) h.earlier he).trans h.ended.room

/-- After the types the functions, variables and constants of the file are right again. -/
theorem items_again {s₁ : Session} (htypes : Check.types source.types (p.session file udts) = .ok () s)
    (htypes' : Check.types source'.types (q.session file udts') = .ok () t)
    (hitems : source.items.forM Check.item s = .ok () s₁) :
    ∃ t₁, source'.items.forM Check.item t = .ok () t₁ := by
  obtain ⟨bs, hs, hm, hu⟩ := (Check.types_make [] source.types).ok htypes
  obtain ⟨bs', ht, hm', hu'⟩ := (Check.types_make [] source'.types).ok htypes'
  have hshapes := h.reordered.sameShapes (h.active_of_udts hs hu) (h.symm.active_of_udts ht hu')
  have hc := h.counterparts hs ht hm hm' h.items.typeDef h.items.symm.typeDef (.refl []) SourceFile.mem_of_types
  have hused : bytesOf s.memory.dataSegment ≤ maxStorage :=
    (h.dataSegment_of_types hs hm).symm ▸ h.room
  have hunshadowed := h.unshadowed hs hm
  have htop := (h.coherent hs).atTop rfl (by simpa [session, Session.start] using hs.isSome_body)
  have htop' := (h.symm.coherent ht).atTop rfl (by simpa [session, Session.start] using ht.isSome_body)
  obtain ⟨hright, hapart, _⟩ := (Check.passes_items_iff htop hused hunshadowed).mp ⟨_, _, hitems⟩
  have hright' : ∀ i' ∈ source'.items, Check.ItemRight i' t := by
    intro i' hi'
    obtain ⟨i, hi, hbare⟩ := h.items.symm.item hi'
    exact (hright i hi).congr hbare.symm (fun id => (hc.known_iff id).mpr) hshapes fun name hn id hid =>
      h.new_of_value ht hm' ⟨source, h.ready.loaded, i, hi, name, hn, hid⟩
  have hapart' := Check.itemsApart_of_reorders h.items hapart
  have hroom := h.room_again ht hm' hu' hright' hapart'
  have hunshadowed' : Check.Unshadowed source'.items t := by
    intro i' hi' name' hn' id hid' hk
    obtain ⟨source₀, hl, i, hi, name, hn, hid⟩ :=
      h.reordered.symm.hasValue ⟨source', h.ready'.loaded, i', hi', name', hn', hid'⟩
    obtain rfl : source = source₀ := Except.ok.inj (h.ready.loaded.symm.trans hl)
    exact hunshadowed i hi name hn id hid ((hc.known_iff id).mp hk)
  obtain ⟨_, t₁, hrun⟩ := (Check.passes_items_iff htop' (by omega) hunshadowed').mpr
    ⟨hright', hapart', hroom⟩
  exact ⟨t₁, hrun⟩

/-! ### Bodies -/

/-- A file that is right in one project is right in the other. -/
theorem file_again (hrun : Check.file source (p.session file udts) = .ok () s) :
    ∃ t, Check.file source' (q.session file udts') = .ok () t := by
  obtain ⟨_, s₁, htypes, hrest⟩ := bind_eq_ok hrun
  obtain ⟨_, s₂, hitems, hbodies⟩ := bind_eq_ok hrest
  obtain ⟨t₁, htypes'⟩ := h.types_again htypes
  obtain ⟨t₂, hitems'⟩ := h.items_again htypes htypes' hitems
  obtain ⟨bs, hs, hm, hu⟩ := Check.declarations_make rfl htypes hitems
  obtain ⟨bs', ht, hm', hu'⟩ := Check.declarations_make rfl htypes' hitems'
  have hshapes := h.reordered.sameShapes (h.active_of_udts hs hu) (h.symm.active_of_udts ht hu')
  have hc := h.counterparts hs ht hm hm' (fun i => h.items.item) (fun i => h.items.symm.item)
    (hu ▸ hu' ▸ hshapes) fun _ hi => hi
  obtain ⟨hdeclared, htidy⟩ := h.left.declared h.steps h.ready htypes hitems
  obtain ⟨hdeclared', htidy'⟩ := h.right.declared h.steps' h.ready' htypes' hitems'
  have hakin := hc.akin htidy htidy' hshapes
  have hright := (hdeclared.ok_iff source.functions).mp ⟨s, hbodies⟩
  rw [Check.file_of_declared htypes' hitems']
  refine (hdeclared'.ok_iff source'.functions).mpr fun d' hd' => ?_
  obtain ⟨d, hd, hbare⟩ := exists_of_perm_map h.items.symm.functions hd'
  obtain ⟨_, hbody⟩ := hright d hd
  exact Check.functionBody_of_akin hakin (h.coherent hs).table (h.symm.coherent ht).table hbare.symm hbody

end Retraced

end Project

end StoragePlan
