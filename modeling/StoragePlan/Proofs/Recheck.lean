import StoragePlan.Proofs.Echoes
import StoragePlan.Proofs.Redeclarations

/-!
What a check that has failed means for the next one. Either it has declared nothing, and the next
check fails in the same way; or it has declared the first name of the file, and the next check finds
that name declared and refuses it, which is another fault than the one before.
-/

namespace StoragePlan

/-! ### The names of a file -/

namespace SourceFile

/-- The names at the top level of a file in the order in which they are declared: types first. -/
def declared (f : SourceFile) : List Token :=
  f.types.map (·.name) ++ f.items.filterMap (·.name?)

/-- The names that the bodies of the functions of a file declare. -/
def inner (f : SourceFile) : List Token := f.functions.flatMap (·.inner)

theorem perm_insert {as bs cs ds : List Token} (h : (as ++ bs ++ cs).Perm ds) (t : Token)
    (ts : List Token) : (as ++ t :: bs ++ (ts ++ cs)).Perm (t :: ts ++ ds) := by
  rw [List.perm_iff_count] at h ⊢
  intro a
  have ha := h a
  simp only [List.count_append, List.count_cons] at ha ⊢
  omega

/-- Every name of a file is declared once. -/
theorem declared_perm (f : SourceFile) :
    (f.declared ++ f.inner).Perm (f.items.flatMap Item.names) := by
  obtain ⟨file, items⟩ := f
  unfold declared inner types functions
  induction items with
  | nil => simp
  | cons i items ih =>
    cases i with
    | importFile i => simpa [Item.names, Item.name?] using ih
    | typeDef d => simpa [Item.names, Item.name?] using ih
    | function d => exact perm_insert ih d.name d.inner
    | varDecl d => exact perm_insert ih d.name []
    | constDecl d => exact perm_insert ih d.name []

/-- The first name of a file stands at a place of its own. -/
theorem first_ne {f : SourceFile} (hn : ((f.items.flatMap Item.names).map (·.position)).Nodup)
    {t : Token} {rest : List Token} (hd : f.declared = t :: rest) :
    ∀ o ∈ rest ++ f.inner, o.position ≠ t.position := by
  intro o ho he
  have hp := (f.declared_perm.map (·.position)).nodup_iff.mpr hn
  rw [hd, List.cons_append, List.map_cons, List.nodup_cons] at hp
  exact hp.1 (he ▸ List.mem_map_of_mem ho)

end SourceFile

namespace Check

variable {s s' s₁ : Session} {source : SourceFile} {f : SemanticFault} {t : Token}

/-! ### A name that is refused -/

theorem requireNew_of_current {id : String} {previous : Symbol}
    (h : s.names.current? s.file id = some previous) (p : Position) :
    requireNew id p s = .error ⟨p, .alreadyDeclared id previous.position⟩ s := by
  have hends : Ends (requireNew id p) s (fun _ _ => False)
      fun f s' => f = ⟨p, .alreadyDeclared id previous.position⟩ ∧ s' = s := by
    refine Ends.bind (Ends.get ?_)
    rw [h]
    exact Ends.throw ⟨rfl, rfl⟩
  cases hrun : requireNew id p s with
  | ok u s' => exact (hends.ok hrun).elim
  | error f s' =>
    obtain ⟨rfl, rfl⟩ := hends.error hrun
    rfl

/-- Whatever begins with the declaration of a known name fails there. -/
theorem refused {α : Type} {id : String} {previous : Symbol} (hid : nameOf t = .ok id)
    (h : s.names.current? s.file id = some previous) {k : String → Check α} :
    (do
      let id ← ofExcept (nameOf t)
      requireNew id t.position
      k id) s = .error ⟨t.position, .alreadyDeclared id previous.position⟩ s := by
  rw [hid]
  exact (bind_of_ok rfl).trans (bind_of_error (requireNew_of_current h t.position))

theorem item_refused {i : Item} {id : String} {previous : Symbol} (ht : i.name? = some t)
    (hid : nameOf t = .ok id) (h : s.names.current? s.file id = some previous) :
    item i s = .error ⟨t.position, .alreadyDeclared id previous.position⟩ s := by
  cases i with
  | function d =>
    cases ht
    exact refused hid h
  | varDecl d =>
    cases ht
    exact refused hid h
  | constDecl d =>
    cases ht
    exact refused hid h
  | importFile i => cases ht
  | typeDef d => cases ht

/-! ### Items that declare -/

/-- Only items with a name are checked. -/
theorem forM_item (is : List Item) :
    is.forM item = (is.filter (·.name?.isSome)).forM item := by
  induction is with
  | nil => rfl
  | cons i is ih =>
    cases i with
    | function d => exact congrArg (fun k => functionName d >>= fun _ => k) ih
    | varDecl d => exact congrArg (fun k => globalVariable d >>= fun _ => k) ih
    | constDecl d => exact congrArg (fun k => constant d >>= fun _ => k) ih
    | importFile i => exact ih
    | typeDef d => exact ih

theorem item_ends {i : Item} (ht : i.name? = some t) (hs : s.body = none) :
    Ends (item i) s (fun _ s' => ∃ b, Grown [b] s s' ∧ nameOf t = .ok b.symbol.id)
      (fun _ s' => Grown [] s s') := by
  have hb : s.body.isSome = false := by simp [hs]
  cases i with
  | function d =>
    cases ht
    exact (functionName_ends d hb).mono (fun _ _ ⟨b, h, hv⟩ => ⟨b, h, hv.1⟩) fun _ _ h => h
  | varDecl d =>
    cases ht
    exact (globalVariable_ends d hb).mono (fun _ _ ⟨b, h, hv⟩ => ⟨b, h, hv.named⟩) fun _ _ h => h
  | constDecl d =>
    cases ht
    exact (constant_ends d).mono (fun _ _ ⟨b, h, hv⟩ => ⟨b, h, hv.named⟩) fun _ _ h => h
  | importFile i => cases ht
  | typeDef d => cases ht

theorem filterMap_named (is : List Item) :
    (is.filter (·.name?.isSome)).filterMap (·.name?) = is.filterMap (·.name?) := by
  rw [List.filterMap_filter]
  congr 1
  funext i
  cases i.name? <;> rfl

theorem name?_of_filter {is is' : List Item} {i : Item}
    (h : is.filter (·.name?.isSome) = i :: is') : ∃ t, i.name? = some t := by
  have hi : i ∈ is.filter (·.name?.isSome) := h ▸ List.mem_cons_self
  exact Option.isSome_iff_exists.mp (List.mem_filter.mp hi).2

/-- The check of a file whose first name is known refuses it. -/
theorem file_refused {rest : List Token} {id : String} {previous : Symbol}
    (hd : source.declared = t :: rest) (hid : nameOf t = .ok id)
    (h : s.names.current? s.file id = some previous) :
    file source s = .error ⟨t.position, .alreadyDeclared id previous.position⟩ s := by
  unfold file
  unfold SourceFile.declared at hd
  cases htypes : source.types with
  | cons d ds =>
    rw [htypes, List.map_cons, List.cons_append, List.cons.injEq] at hd
    obtain ⟨rfl, _⟩ := hd
    exact bind_of_error (bind_of_error (bind_of_error (refused hid h)))
  | nil =>
    rw [htypes, List.map_nil, List.nil_append, ← filterMap_named] at hd
    have hnone : types [] s = .ok () s := rfl
    rw [bind_of_ok hnone, forM_item]
    cases hitems : source.items.filter (·.name?.isSome) with
    | nil => simp [hitems] at hd
    | cons i is =>
      obtain ⟨t', ht⟩ := name?_of_filter hitems
      rw [hitems, List.filterMap_cons_some ht, List.cons.injEq] at hd
      obtain ⟨rfl, _⟩ := hd
      exact bind_of_error (bind_of_error (item_refused ht hid h))

/-! ### A check that fails -/

/-- The failed check has declared the name of the first token and refuses none but the others. -/
structure Begun (t : Token) (others : List Token) (f : SemanticFault) (s s' : Session) : Prop where
  remains : ∃ es us ss, Remains es us ss s s' ∧ ∃ x ∈ ss, nameOf t = .ok x.id
  refuses : f.cause.isRedeclaration = true → ∃ o ∈ others, f.position = o.position

/-- The check has failed with nothing declared, and fails so from every session that is alike. -/
structure Fruitless (x : Check Unit) (f : SemanticFault) (s s' : Session) : Prop where
  grown : Grown [] s s'
  again : ∀ t, Alike s t → ∃ t', x t = .error f t'

/-- A failure after declarations that include the name. -/
theorem begun_of_grown {bs : List Binding} {others : List Token} (hg : Grown bs s s₁)
    (hb : ∃ b ∈ bs, nameOf t = .ok b.symbol.id) (hf : Failed s₁ s')
    (hr : f.cause.isRedeclaration = true → ∃ o ∈ others, f.position = o.position) :
    Begun t others f s s' where
  remains := by
    obtain ⟨es, us, ss, hremains⟩ := hf.remains
    obtain ⟨b, hb, hid⟩ := hb
    refine ⟨_, _, _, Remains.after hg hremains hf.types, b.symbol, ?_, hid⟩
    exact List.mem_append_right _ (List.mem_map_of_mem hb)
  refuses := hr

/-- The check of some items and then of the bodies of functions. -/
def itemsThenBodies (is : List Item) (ds : List FunctionDef) : Check Unit := do
  is.forM item
  ds.forM functionBody

theorem file_eq (source : SourceFile) :
    file source = types source.types >>= fun _ => itemsThenBodies source.items source.functions :=
  rfl

theorem itemsThenBodies_ends (is : List Item) (ds : List FunctionDef) (hs : s.body = none) :
    Ends (itemsThenBodies is ds) s (fun _ _ => True) (fun _ s' => Failed s s') := by
  have hb : s.body.isSome = false := by simp [hs]
  refine (Grows.forM grows_item is s hb).seq (fun _ _ hf => hf) fun _ s₁ ⟨bs, h₁⟩ => ?_
  have hs₁ : s₁.body = none := by simpa [hs] using h₁.isSome_body
  exact (functionBodies_ends ds hs₁).mono (fun _ _ _ => trivial) fun _ _ hf => .after h₁ hf

theorem refuses_itemsThenBodies {ts : List Token} {is : List Item} {ds : List FunctionDef}
    (hi : is.filterMap (·.name?) ⊆ ts) (hd : ds.flatMap (·.inner) ⊆ ts) :
    Refuses ts (itemsThenBodies is ds) := by
  refine (Refuses.forM fun i h => refuses_item fun t ht => ?_).bind fun _ => .forM fun d h => ?_
  · exact hi (List.mem_filterMap.mpr ⟨i, h, ht⟩)
  · exact (refuses_functionBody d).mono fun t ht => hd (List.mem_flatMap.mpr ⟨d, h, ht⟩)

theorem Halted.begun {d : TypeDef} {others : List Token} (h : Halted [d.symbol.id] s s')
    (hid : nameOf d.name = .ok d.symbol.id)
    (hr : f.cause.isRedeclaration = true → ∃ o ∈ others, f.position = o.position) :
    Begun d.name others f s s' where
  remains := by
    obtain ⟨ss, us, hw, hsuffix⟩ := h
    obtain ⟨x, hx, hxid⟩ := List.mem_map.mp (hsuffix.subset List.mem_cons_self)
    exact ⟨[], us, ss, hw.remains, x, hx, hxid ▸ hid⟩
  refuses := hr

/-- What follows the name of the first of some types. -/
def afterFirst (d : TypeDef) (ds : List TypeDef) : Check Unit := do
  ds.forM typeName
  (d :: ds).forM typeBody
  (d :: ds).forM typeSize

theorem types_cons (d : TypeDef) (ds : List TypeDef) :
    types (d :: ds) = typeName d >>= fun _ => afterFirst d ds := by
  rw [types]
  exact bind_assoc (typeName d) (fun _ => ds.forM typeName) _

theorem refuses_afterFirst (d : TypeDef) (ds : List TypeDef) :
    Refuses (ds.map (·.name)) (afterFirst d ds) :=
  (Refuses.forM fun _ h => refuses_typeName (List.mem_map_of_mem h)).bind fun _ =>
    refuses_shapes (d :: ds)

/-- A failure with the name of the first type declared. -/
theorem types_begun {d : TypeDef} {ds : List TypeDef} (h₁ : typeName d s = .ok () s₁)
    (hrun : types (d :: ds) s = .error f s') : Begun d.name (ds.map (·.name)) f s s' := by
  have hid := ((typeName_ends d (.refl s)).ok h₁).1
  have hrest : types (d :: ds) s = afterFirst d ds s₁ := by
    rw [types_cons]
    exact bind_of_ok h₁
  have hfault := (refuses_afterFirst d ds s₁).error (hrest.symm.trans hrun)
  obtain ⟨d', rest, hd, ⟨_, hfail⟩ | hhalted⟩ := (types_ends (d :: ds)).error hrun
  · cases hd
    rw [h₁] at hfail
    cases hfail
  · cases hd
    exact hhalted.begun hid hfault

theorem Begun.mono {others others' : List Token} (h : Begun t others f s s')
    (ho : others ⊆ others') : Begun t others' f s s' :=
  ⟨h.remains, fun hr => by
    obtain ⟨o, hmem, hp⟩ := h.refuses hr
    exact ⟨o, ho hmem, hp⟩⟩

/-- A file with types that fails. -/
theorem file_fails_types {d : TypeDef} {ds : List TypeDef} (htypes : source.types = d :: ds)
    (hs : s.body = none) (hrun : file source s = .error f s') :
    Fruitless (file source) f s s' ∨
      Begun d.name (ds.map (·.name) ++ source.items.filterMap (·.name?) ++ source.inner) f s s' := by
  rw [file_eq, htypes] at hrun ⊢
  cases h₁ : typeName d s with
  | error f₁ s₁ =>
    have hstop : ∀ {t t' : Session}, typeName d t = .error f₁ t' →
        types (d :: ds) t = .error f₁ t' := fun h => by
      rw [types_cons]
      exact bind_of_error h
    rw [bind_of_error (hstop h₁)] at hrun
    cases hrun
    obtain rfl := (typeName_ends d (.refl s)).error h₁
    refine .inl ⟨.refl _, fun t ht => ?_⟩
    obtain ⟨t', h⟩ := (echoes_typeName ht d).error h₁
    exact ⟨t', bind_of_error (hstop h)⟩
  | ok u s₁ =>
    right
    cases h₂ : types (d :: ds) s with
    | error f₂ s₂ =>
      rw [bind_of_error h₂] at hrun
      cases hrun
      exact (types_begun h₁ h₂).mono (by simp)
    | ok u s₂ =>
      rw [bind_of_ok h₂] at hrun
      obtain ⟨bs, hg, hdef⟩ := (types_ends (d :: ds)).ok h₂
      have hs₂ : s₂.body = none := by simpa [hs] using hg.isSome_body
      obtain ⟨b, hb, hforms⟩ := hdef.all d List.mem_cons_self
      refine begun_of_grown hg ⟨b, hb, hforms.named⟩ ((itemsThenBodies_ends _ _ hs₂).error hrun) ?_
      exact (refuses_itemsThenBodies (by simp) (by simp [SourceFile.inner]) s₂).error hrun

/-- A file without types that fails. -/
theorem file_fails_items {i : Item} {is : List Item} (htypes : source.types = [])
    (hitems : source.items.filter (·.name?.isSome) = i :: is) (ht : i.name? = some t)
    (hs : s.body = none) (hrun : file source s = .error f s') :
    Fruitless (file source) f s s' ∨ Begun t (is.filterMap (·.name?) ++ source.inner) f s s' := by
  have hfile : file source = item i >>= fun _ => itemsThenBodies is source.functions := by
    rw [file, htypes, forM_item, hitems]
    exact bind_assoc (item i) (fun _ => is.forM item) _
  rw [hfile] at hrun ⊢
  cases h₁ : item i s with
  | error f₁ s₁ =>
    rw [bind_of_error h₁] at hrun
    cases hrun
    refine .inl ⟨(item_ends ht hs).error h₁, fun t' ht' => ?_⟩
    obtain ⟨t'', h⟩ := (echoes_item ht' i).error h₁
    exact ⟨t'', bind_of_error h⟩
  | ok u s₁ =>
    right
    rw [bind_of_ok h₁] at hrun
    obtain ⟨b, hg, hid⟩ := (item_ends ht hs).ok h₁
    have hs₁ : s₁.body = none := by simpa [hs] using hg.isSome_body
    refine begun_of_grown hg ⟨b, List.mem_cons_self, hid⟩
      ((itemsThenBodies_ends _ _ hs₁).error hrun) ?_
    exact (refuses_itemsThenBodies (by simp) (by simp [SourceFile.inner]) s₁).error hrun

/-- The check of a file that declares nothing succeeds. -/
theorem file_of_nothing (htypes : source.types = [])
    (hitems : source.items.filter (·.name?.isSome) = []) : file source s = .ok () s := by
  have hfunctions : source.functions = [] := by
    rw [SourceFile.functions, List.filterMap_eq_nil_iff]
    rw [List.filter_eq_nil_iff] at hitems
    intro i hi
    cases i with
    | function d => exact absurd rfl (hitems _ hi)
    | _ => rfl
  rw [file, htypes, forM_item, hitems, hfunctions]
  rfl

/-- A check that fails is fruitless or has declared the first name of the file. -/
theorem file_fails (hs : s.body = none) (hrun : file source s = .error f s') :
    Fruitless (file source) f s s' ∨
      ∃ t rest, source.declared = t :: rest ∧ Begun t (rest ++ source.inner) f s s' := by
  unfold SourceFile.declared
  cases htypes : source.types with
  | cons d ds =>
    refine (file_fails_types htypes hs hrun).imp id fun h => ?_
    exact ⟨d.name, _, rfl, h⟩
  | nil =>
    rw [← filterMap_named]
    cases hitems : source.items.filter (·.name?.isSome) with
    | nil =>
      rw [file_of_nothing htypes hitems] at hrun
      cases hrun
    | cons i is =>
      obtain ⟨t, ht⟩ := name?_of_filter hitems
      refine (file_fails_items htypes hitems ht hs hrun).imp id fun h => ?_
      exact ⟨t, _, List.filterMap_cons_some ht, h⟩

end Check

end StoragePlan
