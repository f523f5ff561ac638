import StoragePlan.Proofs.AddressMap
import StoragePlan.Proofs.Frames
import StoragePlan.Proofs.TwinBodies

/-!
Bodies do not depend on each other. The body of a function leaves storage and names as they were, but for
entries in the table of types; so when the next body is checked, the session is a twin of the one in which
the first body was checked.
-/

namespace StoragePlan

/-! ### Handles of arguments -/

/-- The arguments of all functions have handles of the table of types. -/
structure Registry.Covered (r : Registry) : Prop where
  ordered : r.types.Ordered
  within : r.Within r.types.types.length

theorem Binding.Matches.within {types : TypeTable} {b : Binding} (h : b.Matches types) :
    b.symbol.Within types.types.length := by
  intro args returns hk a ha
  obtain ⟨e, _, sig, _, _, hargs, _⟩ := h.calls hk
  have hm : (a.id, types.typeId? a.type) ∈ Member.spelled sig.params :=
    hargs ▸ List.mem_map_of_mem ha
  obtain ⟨m, _, hspelled⟩ := List.mem_map.mp hm
  obtain ⟨ty, hty, _⟩ := Option.map_eq_some_iff.mp (Prod.mk.inj hspelled).2.symm
  exact TypeTable.get?_lt hty

theorem Check.Stored.within {types : TypeTable} {ss : List Symbol} {es : List Element}
    (h : Check.Stored types ss es) : ∀ x ∈ ss, x.Within types.types.length := by
  intro x hx
  obtain ⟨bs, hsymbols, _, hm⟩ := h
  cases hu : x.isUdt with
  | true =>
    intro args returns hk
    simp [Symbol.isUdt, hk] at hu
  | false =>
    have hmem : x ∈ bs.map (·.symbol) := by
      rw [hsymbols]
      exact List.mem_filter.mpr ⟨hx, by simp [hu]⟩
    obtain ⟨b, hb, rfl⟩ := List.mem_map.mp hmem
    exact (hm b hb).within

namespace Registry.Covered

variable {r r' : Registry} {file : String}

theorem addFile (h : r.Covered) (file : String) : (r.addFile file).Covered := by
  have ht := types_addFile r file
  exact ⟨ht.symm ▸ h.ordered, ht.symm ▸ h.within.addFile file⟩

/-- New symbols of a file have handles of the table as it is then. -/
theorem grow (h : r.Covered) {ss : List Symbol} (hg : r.types.Grown r'.types)
    (ht : r'.tables = (r.onTable file (·.grow ss)).tables)
    (hs : ∀ x ∈ ss, x.Within r'.types.types.length) : r'.Covered where
  ordered := hg.ordered h.ordered
  within := by
    have hw : (r.onTable file (·.grow ss)).Within r'.types.types.length :=
      (h.within.mono hg.entries.length_le).onTable fun t ht => ht.grow hs
    intro t hm
    exact hw t (ht ▸ hm)

end Registry.Covered

theorem Check.Grown.covered {bs : List Binding} {s s' : Session} (h : Check.Grown bs s s')
    (hc : s.names.Covered) : s'.names.Covered :=
  hc.grow h.types h.tables fun x hx => by
    obtain ⟨b, hb, rfl⟩ := List.mem_map.mp hx
    exact (h.sound hc.ordered b hb).within

namespace Project

variable {lib : Library} {p q : Project}

theorem covered_settled {file : String} (source : SourceFile) (udts : List Udt)
    (h : p.names.Covered) : (p.settled (p.checked file source udts)).names.Covered := by
  obtain ⟨es, us, ss, hl, _⟩ := settled_left p file source udts
  have ht : (p.names.addFile file).types = p.names.types := Registry.types_addFile p.names file
  exact (h.addFile file).grow (ht.symm ▸ hl.types) hl.tables (hl.stored h.ordered).within

theorem covered_step (h : p.names.Covered) (hs : Step lib p q) : q.names.Covered := by
  rcases hs with hs | hs
  · cases hs with
    | enter hv ha => exact h.addFile _
    | link ha hl hi hv => exact ⟨h.ordered, h.within.onTable fun t ht => ht.addOuter _⟩
    | finish hr hv => exact covered_settled _ _ h
  · cases hs with
    | fail hr hf => exact covered_settled _ _ h
    | leave => exact h

theorem covered_steps (h : p.names.Covered) (hs : Steps lib p q) : q.names.Covered :=
  hs.keep (P := fun p => p.names.Covered) (fun _ _ hp hs => covered_step hp hs) h

theorem afterAll_covered (calls : List (Library × String)) : (afterAll calls).names.Covered := by
  have hempty : (empty : Project).names.Covered :=
    ⟨TypeTable.tidy_empty.ordered, by simp [empty, Registry.empty, Registry.Within]⟩
  exact afterAll_keep (P := fun p => p.names.Covered) hempty
    (fun lib file p h => covered_steps (p := p.idle) h (after_steps lib file p).1) calls

end Project

open Project in
theorem Starts.covered {lib : Library} {n : Nat} {file : String} {p : Project} {source : SourceFile}
    {s : Session} (h : Starts lib n file p source s) (hp : p.names.Covered) (ha : file ∉ p.active) :
    s.names.Covered := by
  induction h with
  | here hv hl hi hu =>
    obtain ⟨hw, _⟩ := walk hv ha hl (fun _ h => h) hi
    exact (covered_steps hp (Advances.steps hw)).addFile _
  | within hv hl hs hi hact _ ih =>
    obtain ⟨hw, _⟩ := walk hv ha hl (fun i h => by simp [hs, h]) hi
    exact ih (covered_steps hp (Advances.steps hw)) hact

/-- There are no frames yet when the check of a file begins. -/
theorem Starts.frames {lib : Library} {n : Nat} {file : String} {p : Project} {source : SourceFile}
    {s : Session} (h : Starts lib n file p source s) : s.frames = [] := by
  induction h with
  | here => rfl
  | within _ _ _ _ _ _ ih => exact ih

/-! ### Bodies in turn -/

namespace Check

variable {q : Prop} {s s' s'' : Session} {d : FunctionDef}

/-- The session `s'` is `s` after the bodies of some functions. -/
def Returned (s s' : Session) : Prop := Grown [] s (reframed s.frames s')

namespace Returned

theorem refl (s : Session) : Returned s s := Grown.refl s

theorem trans (h : Returned s s') (h' : Returned s' s'') : Returned s s'' :=
  Grown.trans h (h'.reframed s.frames)

theorem body (h : Returned s s') (hb : s.body = none) : s'.body = none := by
  have hsome := h.isSome_body
  simpa [hb, reframed] using hsome

theorem functionBody (h : Returned s s') (hb : s.body = none)
    (hrun : functionBody d s' = .ok () s'') : Returned s s'' :=
  h.trans ((functionBody_ends d (h.body hb)).ok hrun)

/-- The check of another body begins in a twin of the first session. -/
theorem twin (h : Returned s s') (hc : s.names.Covered) (hb : s.body = none)
    (hq : q → s.Legible ∧ s'.Legible) : Twin q s' s s' s where
  file := h.file.symm
  memory := h.memory_eq.symm
  outline := (Registry.outline_congr h.tables_eq).symm
  body := hb.trans (h.body hb).symm
  ordered := hc.ordered
  left := h.types
  right := .refl _
  within := by
    rw [show s'.names.outline = s.names.outline from Registry.outline_congr h.tables_eq]
    exact hc.within.outline
  told hl := ⟨(hq hl).2, (hq hl).1, [], [], rfl, rfl, rfl, by simp [NodeTypes.decoded]⟩

end Returned

/-- Bodies are right one after the other if each is right by itself. -/
theorem bodies_ok_iff (ds : List FunctionDef) (hc : s.names.Covered) (hb : s.body = none)
    (h : Returned s s') : (∃ e, ds.forM functionBody s' = .ok () e) ↔
      ∀ d ∈ ds, ∃ e, functionBody d s = .ok () e := by
  induction ds generalizing s' with
  | nil =>
    constructor
    · intro _ d hd
      cases hd
    · exact fun _ => ⟨s', rfl⟩
  | cons d ds ih =>
    have htwin : Twin False s' s s' s := h.twin hc hb False.elim
    have hfirst : (∃ e, functionBody d s' = .ok () e) ↔ ∃ e, functionBody d s = .ok () e :=
      (repeats_functionBody False.elim s' s htwin).ok_iff
    rw [List.forall_mem_cons, ← hfirst]
    constructor
    · rintro ⟨e, hrun⟩
      obtain ⟨_, s₁, hd, hds⟩ := bind_eq_ok hrun
      exact ⟨⟨s₁, hd⟩, (ih (h.functionBody hb hd)).mp ⟨e, hds⟩⟩
    · rintro ⟨⟨s₁, hd⟩, hds⟩
      obtain ⟨e, hrun⟩ := (ih (h.functionBody hb hd)).mpr hds
      exact ⟨e, (bind_of_ok hd).trans hrun⟩

/-- The bodies of a file can be checked, after its declarations. -/
structure Declared (us : List Udt) (s : Session) : Prop extends Begins us s where
  covered : s.names.Covered
  frames : s.frames = []

namespace Declared

variable {us : List Udt} {ds ds' : List FunctionDef} {e e' : Session}

theorem ok_iff (h : Declared us s) (ds : List FunctionDef) :
    (∃ e, ds.forM functionBody s = .ok () e) ↔ ∀ d ∈ ds, ∃ e, functionBody d s = .ok () e :=
  bodies_ok_iff ds h.covered h.body (.refl s)

theorem frames_of_run (h : Declared us s) (hrun : ds.forM functionBody s = .ok () e) :
    e.frames = ds.map (·.frame us) := by
  rw [(functionBodies_framed ds h.toBegins hrun).1, h.frames, List.nil_append]

/-- A function has the same frame with others and alone. -/
theorem frame (h : Declared us s) (hrun : ds.forM functionBody s = .ok () e)
    (halone : functionBody d s = .ok () e') {k : Nat} (hk : ds[k]? = some d) :
    ∃ frame, e'.frames = [frame] ∧ e.frames[k]? = some frame := by
  have hframe := (functionBody_framed h.fits halone).frames
  rw [h.frames, h.udts, List.nil_append] at hframe
  refine ⟨d.frame us, hframe, ?_⟩
  rw [h.frames_of_run hrun, List.getElem?_map, hk, Option.map_some]

/-- With other bodies storage and symbols are the same, and so are the frames of functions that are. -/
theorem others (h : Declared us s) (hrun : ds.forM functionBody s = .ok () e)
    (hrun' : ds'.forM functionBody s = .ok () e') :
    e'.memory = e.memory ∧ e'.names.tables = e.names.tables ∧
      ∀ j : Nat, ds'[j]? = ds[j]? → e'.frames[j]? = e.frames[j]? := by
  have hreturned : Returned s e := (functionBodies_ends ds h.body).ok hrun
  have hreturned' : Returned s e' := (functionBodies_ends ds' h.body).ok hrun'
  refine ⟨?_, ?_, ?_⟩
  · exact hreturned'.memory_eq.trans hreturned.memory_eq.symm
  · exact hreturned'.tables_eq.trans hreturned.tables_eq.symm
  · intro j hj
    rw [h.frames_of_run hrun, h.frames_of_run hrun', List.getElem?_map, List.getElem?_map, hj]

end Declared

end Check

/-! ### What is recorded -/

namespace NodeTypes

variable {types : TypeTable} {nodes nodes' : NodeTypes} {n : Nat}

theorem typeOf?_eq_lookup : nodes.typeOf? types n = (nodes.decoded types).lookup n := by
  induction nodes with
  | nil => rfl
  | cons e rest ih =>
    change (List.lookup n (e :: rest)).map types.valueType =
      List.lookup n ((e.1, types.valueType e.2) :: decoded types rest)
    rw [List.lookup_cons, List.lookup_cons]
    cases n == e.1 with
    | true => rfl
    | false => exact ih

theorem typeOf?_append :
    (nodes ++ nodes').typeOf? types n = (nodes.typeOf? types n).or (nodes'.typeOf? types n) := by
  rw [typeOf?_eq_lookup, decoded_append, List.lookup_append, ← typeOf?_eq_lookup,
    ← typeOf?_eq_lookup]

theorem typeOf?_eq_none (h : n ∉ nodes.map (·.1)) : nodes.typeOf? types n = none := by
  rw [typeOf?, get?, List.lookup_eq_none_iff.mpr, Option.map_none]
  intro e he
  simp only [bne_iff_ne]
  rintro rfl
  exact h (List.mem_map_of_mem he)

end NodeTypes

namespace Check

variable {s s' e : Session} {d : FunctionDef}

/-- What a step adds stands under the numbers of the nodes that it visits. -/
theorem Tells.added {α : Type} {x : Check α} {P : α → Prop} {cs : List (Check Task)} {es : List Expr}
    {a : α} (h : Tells x P cs (Expr.nodesAll es)) (hs : s.Legible) (hx : x s = .ok a s') :
    s'.Legible ∧ ∃ added : NodeTypes, s'.types = added ++ s.types ∧
      ∀ n ∈ added.map (·.1), n ∈ Expr.numbersAll es := by
  obtain ⟨_, vs, hvs, hacc⟩ := (h s hs).ok hx
  obtain ⟨added, hadded, hd⟩ := hacc.recorded
  refine ⟨hacc.legible, added, hadded, ?_⟩
  intro n hn
  have hkeys : added.map (·.1) = ((vs.filterMap Visit.entry?).reverse).map (·.1) := by
    rw [← hd, NodeTypes.decoded, List.map_map]
    rfl
  rw [hkeys, List.map_reverse, List.mem_reverse] at hn
  have hid : n ∈ (vs.map (·.1)).map Expr.id := by
    rw [List.map_map]
    exact (entries_sublist vs).subset hn
  rw [hvs] at hid
  exact (Expr.nodesAll_sublist es).subset hid

/-- The nodes of one of several bodies have the types that they have if it is the only one. -/
theorem typeOf?_of_bodies {ds₁ ds₂ : List FunctionDef} (hc : s.names.Covered) (hb : s.body = none)
    (hl : s.Legible) (hds : ∀ d' ∈ ds₁ ++ d :: ds₂, d'.Sound)
    (hrun : (ds₁ ++ d :: ds₂).forM functionBody s = .ok () s')
    (halone : functionBody d s = .ok () e) {n : Nat} (hn : n ∉ s.types.map (·.1))
    (h₁ : n ∉ Expr.numbersAll (ds₁.flatMap (·.body.exprs)))
    (h₂ : n ∉ Expr.numbersAll (ds₂.flatMap (·.body.exprs))) :
    s'.types.typeOf? s'.names.types n = e.types.typeOf? e.names.types n := by
  have hsound₁ : ∀ d' ∈ ds₁, d'.Sound := fun d' hd => hds d' (by simp [hd])
  have hsound₂ : ∀ d' ∈ ds₂, d'.Sound := fun d' hd => hds d' (by simp [hd])
  have hsound : d.Sound := hds d (by simp)
  have happend : (ds₁ ++ d :: ds₂).forM functionBody =
      ds₁.forM functionBody >>= fun _ => (d :: ds₂).forM functionBody := List.forM_append
  rw [happend] at hrun
  obtain ⟨_, s₁, hrun₁, hrun⟩ := bind_eq_ok hrun
  obtain ⟨_, s₂, hbody, hrun₂⟩ := bind_eq_ok hrun
  have hreturned : Returned s s₁ := (functionBodies_ends ds₁ hb).ok hrun₁
  have hb₂ : s₂.body = none := (hreturned.functionBody hb hbody).body hb
  have htypes : s₂.names.types.Grown s'.names.types :=
    ((functionBodies_ends ds₂ hb₂).ok hrun₂).types
  obtain ⟨hl₁, earlier, hearlier, hkeys₁⟩ := (tells_functionBodies hsound₁).added hl hrun₁
  -- The body goes the same way after the others and alone.
  have htwin : Twin True s₁ s s₁ s := hreturned.twin hc hb fun _ => ⟨hl, hl₁⟩
  obtain ⟨_, _, hbody', _, hafter⟩ := (repeats_functionBody (fun _ => hsound) s₁ s htwin).ok hbody
  cases halone.symm.trans hbody'
  obtain ⟨added, added', ha, ha', hd, hdef⟩ := (hafter.told trivial).recorded
  have hl₂ : s₂.Legible := (hafter.told trivial).left
  obtain ⟨_, later, hlater, hkeys₂⟩ := (tells_functionBodies hsound₂).added hl₂ hrun₂
  have hkept : added.decoded s'.names.types = added.decoded s₂.names.types :=
    NodeTypes.decoded_mono hl₂.types.ordered htypes hdef
  -- No other entry has a number of this body.
  rw [hlater, ha, hearlier, ha', NodeTypes.typeOf?_append, NodeTypes.typeOf?_append,
    NodeTypes.typeOf?_append, NodeTypes.typeOf?_append,
    NodeTypes.typeOf?_eq_none fun hm => h₂ (hkeys₂ n hm),
    NodeTypes.typeOf?_eq_none fun hm => h₁ (hkeys₁ n hm), NodeTypes.typeOf?_eq_none hn,
    NodeTypes.typeOf?_eq_none hn, Option.none_or, Option.none_or, Option.or_none, Option.or_none,
    NodeTypes.typeOf?_eq_lookup, NodeTypes.typeOf?_eq_lookup, hkept, hd]

end Check

/-! ### Files as they are read -/

/-- The declarations are sound and all nodes have numbers of their own, as in a file that was read. -/
structure SourceFile.Proper (f : SourceFile) : Prop where
  sound : ∀ i ∈ f.items, i.Sound
  numbers : f.numbers.Nodup

theorem SourceFile.parse_proper {name text : String} {source : SourceFile}
    (h : SourceFile.parse name (scan text).tokens = .ok source) : source.Proper :=
  ⟨(SourceFile.parse_sound (scan_sound text) h).1, SourceFile.parse_nodup h⟩

/-- The numbers of one body stand nowhere else in the file. -/
theorem SourceFile.Proper.apart {f : SourceFile} (h : f.Proper) {ds₁ ds₂ : List FunctionDef}
    {d : FunctionDef} (hf : f.functions = ds₁ ++ d :: ds₂) {n : Nat}
    (hn : n ∈ Expr.numbersAll d.body.exprs) :
    n ∉ Expr.numbersAll (f.items.flatMap Item.initializer) ∧
      n ∉ Expr.numbersAll (ds₁.flatMap (·.body.exprs)) ∧
      n ∉ Expr.numbersAll (ds₂.flatMap (·.body.exprs)) := by
  have hnodup := f.numbers_perm.nodup_iff.mpr h.numbers
  rw [hf, List.flatMap_append, List.flatMap_cons, Expr.numbersAll_append, Expr.numbersAll_append,
    List.nodup_append, List.nodup_append, List.nodup_append] at hnodup
  obtain ⟨_, ⟨_, ⟨_, _, hafter⟩, hbefore⟩, hglobal⟩ := hnodup
  refine ⟨?_, ?_, ?_⟩
  · intro hm
    exact hglobal n hm n (List.mem_append_right _ (List.mem_append_left _ hn)) rfl
  · intro hm
    exact hbefore n hm n (List.mem_append_left _ hn) rfl
  · intro hm
    exact hafter n hn n hm rfl

namespace Check

variable {f : SourceFile} {s s₁ s₂ : Session}

theorem declared_of_items {us : List Udt} (hb : Begins us s) (hc : s.names.Covered)
    (hs : s.frames = []) (htypes : types f.types s = .ok () s₁)
    (hitems : f.items.forM item s₁ = .ok () s₂) :
    Declared ((f.types.map (·.udt)).reverse ++ us) s₂ := by
  obtain ⟨hbegins, hframes⟩ := bodies_begin hb htypes hitems
  have hnone : s.body.isSome = false := by simp [hb.body]
  obtain ⟨bs₁, h₁⟩ := (grows_types false f.types s hnone).ok htypes
  obtain ⟨bs₂, h₂⟩ := (Grows.forM grows_item f.items s₁ (h₁.isSome_body.trans hnone)).ok hitems
  exact ⟨hbegins, (h₁.trans h₂).covered hc, hframes.trans hs⟩

/-- What is left of the check of a file after its declarations are its bodies. -/
theorem file_of_declared (htypes : types f.types s = .ok () s₁)
    (hitems : f.items.forM item s₁ = .ok () s₂) : file f s = f.functions.forM functionBody s₂ :=
  (bind_of_ok htypes).trans (bind_of_ok hitems)

/-- The declarations of a file record types for its initializers only. -/
theorem declared_keys (hf : ∀ i ∈ f.items, i.Sound) (hl : s.Legible) (hs : s.types = [])
    (htypes : types f.types s = .ok () s₁) (hitems : f.items.forM item s₁ = .ok () s₂) :
    s₂.Legible ∧ ∀ n ∈ s₂.types.map (·.1), n ∈ Expr.numbersAll (f.items.flatMap Item.initializer) := by
  have hquiet := Tells.quiet_ends (fun _ : True => tells_types (SourceFile.types_sound hf)) fun _ => hl
  obtain ⟨_, hl₁, hs₁⟩ := hquiet.ok htypes trivial
  obtain ⟨hl₂, added, hadded, hkeys⟩ := (tells_items hf).added hl₁ hitems
  rw [hs₁, hs, List.append_nil] at hadded
  exact ⟨hl₂, hadded ▸ hkeys⟩

end Check

/-! ### Another body -/

namespace SourceFile

/-- The items with another body for the function number `k`. -/
def rebodied (b : Block) : Nat → List Item → List Item
  | _, [] => []
  | 0, .function d :: rest => .function { d with body := b } :: rest
  | k + 1, .function d :: rest => .function d :: rebodied b k rest
  | k, i :: rest => i :: rebodied b k rest

/-- The file with another body for its function number `k`. -/
def withBody (k : Nat) (b : Block) (f : SourceFile) : SourceFile :=
  { f with items := rebodied b k f.items }

variable (k : Nat) (b : Block) (f : SourceFile)

theorem types_withBody : (f.withBody k b).types = f.types := by
  unfold withBody types
  dsimp only
  fun_induction rebodied b k f.items with
  | case1 => rfl
  | case2 => rfl
  | case3 k d rest ih => exact ih
  | case4 k i rest _ _ ih => rw [List.filterMap_cons, List.filterMap_cons, ih]

theorem functions_withBody :
    (f.withBody k b).functions = f.functions.modify k fun d => { d with body := b } := by
  unfold withBody functions
  dsimp only
  fun_induction rebodied b k f.items with
  | case1 => simp
  | case2 => rfl
  | case3 k d rest ih => simp [ih]
  | case4 k i rest hzero hsucc ih =>
    have hi : ∀ d, i ≠ .function d := by
      intro d
      cases k with
      | zero => exact hzero d rfl
      | succ k => exact hsucc k d rfl
    cases i with
    | function d => exact absurd rfl (hi d)
    | _ => exact ih

/-- To declare a function its body is not looked at. -/
theorem items_withBody : (f.withBody k b).items.forM Check.item = f.items.forM Check.item := by
  unfold withBody
  dsimp only
  fun_induction rebodied b k f.items with
  | case1 => rfl
  | case2 => rfl
  | case3 k d rest ih =>
    change (Check.item _ >>= fun _ => (rebodied b k rest).forM Check.item) = _
    rw [ih]
    rfl
  | case4 k i rest _ _ ih =>
    change (Check.item _ >>= fun _ => (rebodied b k rest).forM Check.item) = _
    rw [ih]
    rfl

end SourceFile

/-- What holds of every function and of one function with another body holds after the change. -/
theorem forall_mem_withBody {P : FunctionDef → Prop} {k : Nat} {b : Block} {f : SourceFile}
    {d : FunctionDef} (h : ∀ d ∈ f.functions, P d) (hk : f.functions[k]? = some d)
    (hd : P { d with body := b }) : ∀ d ∈ (f.withBody k b).functions, P d := by
  intro d' hd'
  rw [SourceFile.functions_withBody] at hd'
  obtain ⟨j, hj⟩ := List.mem_iff_getElem?.mp hd'
  rw [List.getElem?_modify] at hj
  obtain ⟨d₀, hd₀, rfl⟩ := Option.map_eq_some_iff.mp hj
  split
  · next hkj =>
    subst hkj
    cases hk.symm.trans hd₀
    exact hd
  · exact h d₀ (List.mem_of_getElem? hd₀)

/-! ### Independence -/

/-- Bodies do not depend on each other. Let a compilation, after any others, lead to the check of a file,
and let the declarations of any file go well from there. The file is right if and only if each of its
bodies is right by itself after the declarations. If it is, each function has the frame that it has when
its body is checked alone, and the entries of all nodes in the body stand for the same types; of the file
this asks that its declarations are sound and its nodes have numbers of their own, as in every file that
was read from a text. With another right body for one function the file is right again, and the frames of
the other functions, storage and all symbols are the same. -/
theorem bodies_are_independent (lib : Library) (file : String) (calls : List (Library × String))
    {source₀ source : SourceFile} {s₀ s₁ declared : Session}
    (hs : Starts lib lib.limit file (.afterAll calls) source₀ s₀)
    (htypes : Check.types source.types s₀ = .ok () s₁)
    (hitems : source.items.forM Check.item s₁ = .ok () declared) :
    ((∃ s, Check.file source s₀ = .ok () s) ↔
      ∀ d ∈ source.functions, ∃ e, Check.functionBody d declared = .ok () e) ∧
    (∀ name text, SourceFile.parse name (scan text).tokens = .ok source → source.Proper) ∧
    ∀ s, Check.file source s₀ = .ok () s →
      (∀ (k : Nat) d e, source.functions[k]? = some d → Check.functionBody d declared = .ok () e →
        (∃ frame, e.frames = [frame] ∧ s.frames[k]? = some frame) ∧
        (source.Proper → ∀ n ∈ Expr.numbersAll d.body.exprs,
          s.types.typeOf? s.names.types n = e.types.typeOf? e.names.types n)) ∧
      ∀ (k : Nat) d b e, source.functions[k]? = some d →
        Check.functionBody { d with body := b } declared = .ok () e →
        ∃ s', Check.file (source.withBody k b) s₀ = .ok () s' ∧ s'.memory = s.memory ∧
          s'.names.tables = s.names.tables ∧ ∀ j : Nat, j ≠ k → s'.frames[j]? = s.frames[j]? := by
  obtain ⟨hquiet, hactive⟩ := Project.afterAll_quiet calls
  have hidle : file ∉ (Project.afterAll calls).active := by simp [hactive]
  have hdeclared := Check.declared_of_items ⟨rfl, hs.stack hquiet hidle, hs.body⟩
    (hs.covered (Project.afterAll_covered calls) hidle) hs.frames htypes hitems
  rw [Check.file_of_declared htypes hitems]
  refine ⟨hdeclared.ok_iff source.functions, fun _ _ => SourceFile.parse_proper, ?_⟩
  intro s hrun
  constructor
  · intro k d e hk halone
    constructor
    · exact hdeclared.frame hrun halone hk
    · intro hproper n hn
      obtain ⟨ds₁, ds₂, hsplit⟩ := List.append_of_mem (List.mem_of_getElem? hk)
      obtain ⟨_, _, _, hnone⟩ := hs.loaded
      obtain ⟨hlegible, hkeys⟩ := Check.declared_keys hproper.sound
        (hs.legible (Project.afterAll_legible calls) hidle) hnone htypes hitems
      obtain ⟨hglobal, hbefore, hafter⟩ := hproper.apart hsplit hn
      have hsound := SourceFile.functions_sound hproper.sound
      rw [hsplit] at hrun hsound
      exact Check.typeOf?_of_bodies hdeclared.covered hdeclared.body hlegible hsound hrun halone
        (fun hm => hglobal (hkeys n hm)) hbefore hafter
  · intro k d b e hk halone
    have hright := (hdeclared.ok_iff source.functions).mp ⟨s, hrun⟩
    obtain ⟨s', hrun'⟩ :=
      (hdeclared.ok_iff _).mpr (forall_mem_withBody hright hk ⟨e, halone⟩)
    obtain ⟨hmemory, htables, hothers⟩ := hdeclared.others hrun hrun'
    have hfile : Check.file (source.withBody k b) s₀ =
        (source.withBody k b).functions.forM Check.functionBody declared :=
      Check.file_of_declared (by rw [SourceFile.types_withBody]; exact htypes)
        (by rw [SourceFile.items_withBody]; exact hitems)
    refine ⟨s', hfile.trans hrun', hmemory, htables, ?_⟩
    intro j hj
    apply hothers
    rw [SourceFile.functions_withBody]
    simp [Ne.symm hj]

/-- A library with two functions that have types of their own under one name. -/
def ownTypes : Library :=
  .ofTexts [("main", "fn f() \x7b type T \x7b x: u8 \x7d var t: T[2]; t[1].x; \x7d " ++
    "fn g(v: u16[3]) -> u16 \x7b type T \x7b y: u32 \x7d var t: T; t.y; return v[2]; \x7d")]

/-- After the body of `f` the type of the field `t.y` has another handle than without it, and stands for
the same type. The frame of `g` is the same as alone, also when the body of `f` is empty. -/
theorem bodies_are_independent_ownTypes :
    ∃ source s₀ s₁ declared s d e,
      Starts ownTypes ownTypes.limit "main" (.afterAll []) source s₀ ∧
      Check.types source.types s₀ = .ok () s₁ ∧ source.items.forM Check.item s₁ = .ok () declared ∧
      Check.file source s₀ = .ok () s ∧ source.functions[1]? = some d ∧
      Check.functionBody d declared = .ok () e ∧
      (s.types.get? 7 = some 5 ∧ e.types.get? 7 = some 2 ∧
        s.types.typeOf? s.names.types 7 = some (.prim .u32)) ∧
      (∃ frame, e.frames = [frame] ∧ s.frames[1]? = some frame) ∧
      ∃ s', Check.file (source.withBody 0 (.mk ⟨1, 8⟩ ⟨1, 9⟩ [])) s₀ = .ok () s' ∧
        s'.frames[1]? = s.frames[1]? := by
  have hrun : (do
      let b ← Project.empty.begin? ownTypes 1 "main"
      let s₁ ← success? (Check.types b.1.types b.2)
      let declared ← success? (b.1.items.forM Check.item s₁)
      let s ← success? (Check.file b.1 b.2)
      let f ← b.1.functions[0]?
      let d ← b.1.functions[1]?
      let _ ← success? (Check.functionBody { f with body := .mk ⟨1, 8⟩ ⟨1, 9⟩ [] } declared)
      let e ← success? (Check.functionBody d declared)
      return ((Expr.numbersAll d.body.exprs).contains 7, s.types.get? 7, e.types.get? 7,
        e.types.typeOf? e.names.types 7)) =
      some (true, some 5, some 2, some (.prim .u32)) := by decide +kernel
  simp only [Option.bind_eq_bind, Option.bind_eq_some_iff, success?_eq_some] at hrun
  obtain ⟨⟨source, s₀⟩, hb, s₁, htypes, declared, hitems, s, hfile, f, hf, d, hd, _, hempty, e,
    halone, hfound⟩ := hrun
  simp only [Option.pure_def, Option.some.injEq, Prod.mk.injEq, List.contains_iff_mem] at hfound
  obtain ⟨hn, hleft, hright, htype⟩ := hfound
  have hstart : Starts ownTypes ownTypes.limit "main" (.afterAll []) source s₀ := .of_begin? rfl hb
  obtain ⟨_, hproper, hagree⟩ := bodies_are_independent ownTypes "main" [] hstart htypes hitems
  obtain ⟨hbodies, hothers⟩ := hagree s hfile
  obtain ⟨name, hload, _⟩ := hstart.loaded
  obtain ⟨text, hparse⟩ := Project.load_eq_ok hload
  obtain ⟨hframe, htypeOf⟩ := hbodies 1 d e hd halone
  obtain ⟨s', hfile', _, _, hframes⟩ := hothers 0 f _ _ hf hempty
  refine ⟨source, s₀, s₁, declared, s, d, e, hstart, htypes, hitems, hfile, hd, halone,
    ⟨hleft, hright, ?_⟩, hframe, s', hfile', hframes 1 (by decide)⟩
  rw [htypeOf (hproper _ text hparse) 7 hn, htype]

end StoragePlan
