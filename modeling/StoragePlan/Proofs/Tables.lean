import StoragePlan.Names.Registry
import StoragePlan.Proofs.Search

/-!
What the symbol tables gain. A declaration adds symbols to the innermost scope of the table of its
file, or to its top level; `grow` says so for any number of them. Only the table of that file
changes, and a scope that is opened, grown and closed again leaves the table as it was.
-/

namespace StoragePlan

namespace SymbolTable

/-- The table with more symbols, newest first, in its innermost scope or else at its top level. -/
def grow (ss : List Symbol) (t : SymbolTable) : SymbolTable :=
  match t.scopes with
  | scope :: outer => { t with scopes := (ss ++ scope) :: outer }
  | [] => { t with symbols := t.symbols ++ ss.reverse }

@[simp] theorem file_grow (ss : List Symbol) (t : SymbolTable) : (t.grow ss).file = t.file := by
  unfold grow; split <;> rfl

@[simp] theorem outer_grow (ss : List Symbol) (t : SymbolTable) : (t.grow ss).outer = t.outer := by
  unfold grow; split <;> rfl

@[simp] theorem depth_grow (ss : List Symbol) (t : SymbolTable) : (t.grow ss).depth = t.depth := by
  unfold grow
  split
  · next hs => simp [depth, hs]
  · rfl

@[simp] theorem grow_nil (t : SymbolTable) : t.grow [] = t := by
  obtain ⟨file, outer, scopes, symbols⟩ := t
  cases scopes <;> simp [grow]

theorem grow_grow (ss ss' : List Symbol) (t : SymbolTable) :
    (t.grow ss).grow ss' = t.grow (ss' ++ ss) := by
  obtain ⟨file, outer, scopes, symbols⟩ := t
  cases scopes <;> simp [grow]

@[simp] theorem file_addOuter (imported : String) (t : SymbolTable) :
    (t.addOuter imported).file = t.file := by
  unfold addOuter; split <;> rfl

@[simp] theorem scopes_addOuter (imported : String) (t : SymbolTable) :
    (t.addOuter imported).scopes = t.scopes := by
  unfold addOuter; split <;> rfl

@[simp] theorem symbols_addOuter (imported : String) (t : SymbolTable) :
    (t.addOuter imported).symbols = t.symbols := by
  unfold addOuter; split <;> rfl

theorem add_eq_grow (s : Symbol) (t : SymbolTable) : t.add s = t.grow [s] := by
  obtain ⟨file, outer, scopes, symbols⟩ := t
  cases scopes <;> rfl

@[simp] theorem closeTo_depth (t : SymbolTable) : t.closeTo t.depth = t := by
  simp [closeTo, depth]

theorem closeTo_eq_closeScope {t : SymbolTable} {d : Nat} (h : d + 1 ≤ t.depth) :
    t.closeTo d = (t.closeTo (d + 1)).closeScope := by
  have hn : t.scopes.length - d = (t.scopes.length - (d + 1)) + 1 := by
    unfold depth at h
    omega
  simp [closeTo, closeScope, hn, List.tail_drop]

theorem current?_grow {ss : List Symbol} {t : SymbolTable} {id : String} :
    (t.grow ss).current? id = none ↔ t.current? id = none ∧ ∀ s ∈ ss, s.id ≠ id := by
  obtain ⟨file, outer, scopes, symbols⟩ := t
  cases scopes <;> simp [grow, current?, and_comm]

/-- The change of a symbol that was just added to a scope without that name. -/
theorem updateLocal_grow {as bs : List Symbol} {s : Symbol} {t : SymbolTable} {f : Symbol → Symbol}
    (hc : t.current? s.id = none) (hs : ∀ a ∈ as ++ bs, a.id ≠ s.id) :
    (t.grow (as ++ s :: bs)).updateLocal s.id f = t.grow (as ++ f s :: bs) := by
  obtain ⟨file, outer, scopes, symbols⟩ := t
  rw [List.forall_mem_append] at hs
  cases scopes with
  | nil =>
    have hb : ∀ a ∈ symbols ++ bs.reverse, (a.id == s.id) = false := by
      intro a ha
      rcases List.mem_append.mp ha with ha | ha
      · simpa [current?] using List.find?_eq_none.mp hc a ha
      · simpa using hs.2 a (List.mem_reverse.mp ha)
    have hu := updateFirst_append_cons (f := f) hb (beq_self_eq_true s.id) as.reverse
    simpa [grow, updateLocal] using hu
  | cons scope rest =>
    have ha : ∀ a ∈ as, (a.id == s.id) = false := fun a h => by simpa using hs.1 a h
    have hu := updateFirst_append_cons (f := f) ha (beq_self_eq_true s.id) (bs ++ scope)
    simpa [grow, updateLocal, updateFirstIn] using hu

theorem local?_grow_isSome {ss : List Symbol} {t : SymbolTable} {s : Symbol} (h : s ∈ ss) :
    ((t.grow ss).local? s.id).isSome := by
  obtain ⟨file, outer, scopes, symbols⟩ := t
  rw [local?, List.find?_isSome]
  refine ⟨s, ?_, beq_self_eq_true s.id⟩
  cases scopes <;> simp [grow, visible, h]

/-- What a name means in a grown table is new or was there before. -/
theorem local?_grow {ss : List Symbol} {t : SymbolTable} {id : String} :
    (∀ x, (t.grow ss).local? id = some x → x ∈ ss ∨ t.local? id = some x) ∧
      ((t.grow ss).local? id = none → t.local? id = none) := by
  obtain ⟨file, outer, scopes, symbols⟩ := t
  cases scopes with
  | nil =>
    simp only [local?, visible, grow, List.flatten_nil, List.nil_append, List.find?_append]
    cases symbols.find? (·.id == id) with
    | some y => simp
    | none =>
      simp only [Option.none_or]
      exact ⟨fun x hx => .inl (List.mem_reverse.mp (List.mem_of_find?_eq_some hx)),
        fun _ => trivial⟩
  | cons scope rest =>
    simp only [local?, visible, grow, List.flatten_cons, List.append_assoc, List.find?_append]
    cases hs : ss.find? (·.id == id) with
    | none => exact ⟨fun x hx => .inr (by simpa using hx), fun h => by simpa using h⟩
    | some y =>
      refine ⟨fun x hx => .inl ?_, fun h => by simp at h⟩
      rw [Option.some_or] at hx
      exact List.mem_of_find?_eq_some (hs.trans hx)

/-- What a grown table exports is new or was exported before. -/
theorem exported?_grow {ss : List Symbol} {t : SymbolTable} {id : String} :
    (∀ x, (t.grow ss).exported? id = some x → x ∈ ss ∨ t.exported? id = some x) ∧
      ((t.grow ss).exported? id = none → t.exported? id = none) := by
  obtain ⟨file, outer, scopes, symbols⟩ := t
  cases scopes with
  | cons scope rest => exact ⟨fun x hx => .inr hx, fun h => h⟩
  | nil =>
    simp only [exported?, grow, List.find?_append]
    cases symbols.find? fun s => s.exported && s.id == id with
    | some y => simp
    | none =>
      simp only [Option.none_or]
      exact ⟨fun x hx => .inl (List.mem_reverse.mp (List.mem_of_find?_eq_some hx)),
        fun _ => trivial⟩

end SymbolTable

namespace Registry

variable {r : Registry} {file : String} {f g : SymbolTable → SymbolTable}

theorem table?_file {t : SymbolTable} (h : r.table? file = some t) : t.file = file := by
  simpa using List.find?_some h

theorem table?_mem {t : SymbolTable} (h : r.table? file = some t) : t ∈ r.tables :=
  List.mem_of_find?_eq_some h

theorem table?_congr {r' : Registry} (h : r'.tables = r.tables) (file : String) :
    r'.table? file = r.table? file := by
  simp [table?, h]

theorem onTable_of_none (h : r.table? file = none) : r.onTable file f = r := by
  simp [onTable, updateFirst_of_find?_eq_none h]

theorem onTable_onTable (hf : ∀ t, (f t).file = t.file) :
    (r.onTable file f).onTable file g = r.onTable file (g ∘ f) := by
  simp only [onTable]
  rw [updateFirst_updateFirst]
  intro t ht
  rwa [hf]

theorem onTable_id : r.onTable file (fun t => t) = r := by
  simp [onTable, updateFirst_id]

/-- Changes that agree on the table of the file are the same change. -/
theorem onTable_congr (h : ∀ t, r.table? file = some t → f t = g t) :
    r.onTable file f = r.onTable file g := by
  cases ht : r.table? file with
  | none => rw [onTable_of_none ht, onTable_of_none ht]
  | some t =>
    obtain ⟨as, bs, hts, hne⟩ := List.find?_eq_some_iff_append.mp ht |>.2
    have ha : ∀ a ∈ as, (a.file == file) = false := fun a h => by simpa using hne a h
    have hx : (t.file == file) = true := by simpa using table?_file ht
    simp only [onTable, hts, updateFirst_append_cons ha hx, h t ht]

theorem table?_onTable (hf : ∀ t, (f t).file = t.file) :
    (r.onTable file f).table? file = (r.table? file).map f := by
  unfold table? onTable
  rw [find?_updateFirst]
  intro t ht
  rwa [hf]

theorem table?_onTable_of_ne {other : String} (hf : ∀ t, (f t).file = t.file) (h : other ≠ file) :
    (r.onTable file f).table? other = r.table? other := by
  unfold table? onTable
  apply find?_updateFirst_of_skip
  intro t ht
  have hne : t.file ≠ other := fun h' => h (by rw [← h', eq_of_beq ht])
  simp [hf, hne]

theorem depth_onTable_grow (ss : List Symbol) :
    (r.onTable file (·.grow ss)).depth file = r.depth file := by
  unfold depth
  rw [table?_onTable (fun t => by simp)]
  cases r.table? file <;> simp

/-- There is nothing to close above the depth of the file. -/
theorem closeTo_depth (r : Registry) (file : String) : r.closeTo file (r.depth file) = r := by
  rw [closeTo, onTable_congr (g := fun t => t), onTable_id]
  intro t ht
  rw [depth, ht, Option.map_some, Option.getD_some, SymbolTable.closeTo_depth]

theorem exported?_congr {r' : Registry} (h : r'.tables = r.tables) (id file : String) :
    r'.exported? id file = r.exported? id file := by
  unfold exported?
  rw [table?_congr h]

theorem lookup?_congr {r' : Registry} (h : r'.tables = r.tables) (file id : String) :
    r'.lookup? file id = r.lookup? file id := by
  have he : r'.exported? id = r.exported? id := funext (exported?_congr h id)
  simp only [lookup?, table?_congr h, he]

theorem exported?_grow {ss : List Symbol} {id other : String} :
    (∀ x, (r.onTable file (·.grow ss)).exported? id other = some x →
      x ∈ ss ∨ r.exported? id other = some x) ∧
    ((r.onTable file (·.grow ss)).exported? id other = none → r.exported? id other = none) := by
  have hf : ∀ t : SymbolTable, (t.grow ss).file = t.file := fun t => t.file_grow ss
  unfold exported?
  by_cases ho : other = file
  · subst ho
    rw [table?_onTable hf]
    cases r.table? other with
    | none => simp
    | some t => simpa using SymbolTable.exported?_grow
  · rw [table?_onTable_of_ne hf ho]
    exact ⟨fun x hx => .inr hx, fun h => h⟩

/-- A name means a symbol with that name. -/
theorem lookup?_id {id : String} {x : Symbol} (h : r.lookup? file id = some x) : x.id = id := by
  unfold lookup? at h
  split at h
  · cases h
  · next t ht =>
    split at h
    · next y hy =>
      cases h
      simpa using List.find?_some hy
    · obtain ⟨o, _, ho⟩ := List.exists_of_findSome?_eq_some h
      obtain ⟨u, _, hu⟩ := Option.bind_eq_some_iff.mp ho
      have hx := List.find?_some hu
      simp only [Bool.and_eq_true, beq_iff_eq] at hx
      exact hx.2

/-- What a name means among grown names is new or was its meaning before. -/
theorem lookup?_grow {ss : List Symbol} {id : String} {x : Symbol}
    (h : (r.onTable file (·.grow ss)).lookup? file id = some x) :
    x ∈ ss ∨ r.lookup? file id = some x := by
  have houter : ∀ os : List String,
      os.findSome? ((r.onTable file (·.grow ss)).exported? id) = some x →
      x ∈ ss ∨ os.findSome? (r.exported? id) = some x := by
    intro os ho
    induction os with
    | nil => cases ho
    | cons o os ih =>
      rw [List.findSome?_cons] at ho ⊢
      split at ho
      · next y hy =>
        cases ho
        rcases exported?_grow.1 x hy with hx | hx
        · exact .inl hx
        · exact .inr (by rw [hx])
      · next hy =>
        rw [exported?_grow.2 hy]
        exact ih ho
  unfold lookup? at h ⊢
  rw [table?_onTable (fun t => t.file_grow ss)] at h
  cases ht : r.table? file with
  | none => simp [ht] at h
  | some t =>
    simp only [ht, Option.map_some, SymbolTable.outer_grow] at h
    split at h
    · next y hy =>
      cases h
      rcases SymbolTable.local?_grow.1 x hy with hx | hx
      · exact .inl hx
      · exact .inr (by simp [hx])
    · next hy =>
      simpa [SymbolTable.local?_grow.2 hy] using houter t.outer h

/-- A field goes to the type that its file has just declared. -/
theorem addField_grow {as bs : List Symbol} {s : Symbol} {field : TypedName}
    (h : ∀ t, r.table? file = some t → t.current? s.id = none ∧ ∀ a ∈ as ++ bs, a.id ≠ s.id) :
    (r.onTable file (·.grow (as ++ s :: bs))).addField file s.id field =
      r.onTable file (·.grow (as ++ s.addField field :: bs)) := by
  have hf : ∀ t : SymbolTable, (t.grow (as ++ s :: bs)).file = t.file := fun t => by simp
  cases ht : r.table? file with
  | none => simp [onTable_of_none ht, addField, updateSymbol, owner?, ht]
  | some t =>
    have hl : ((t.grow (as ++ s :: bs)).local? s.id).isSome :=
      SymbolTable.local?_grow_isSome (by simp)
    simp only [addField, updateSymbol, owner?, table?_onTable hf, ht, Option.map_some, hl, if_true,
      beq_self_eq_true]
    rw [onTable_onTable hf]
    apply onTable_congr
    intro t' ht'
    rw [ht, Option.some.injEq] at ht'
    subst ht'
    exact SymbolTable.updateLocal_grow (h t ht).1 (h t ht).2

theorem types_addField (field : TypedName) (id : String) :
    (r.addField file id field).types = r.types := by
  unfold addField updateSymbol
  split <;> rfl

theorem tables_addField_congr {r' : Registry} (h : r'.tables = r.tables) {field : TypedName}
    {id : String} : (r'.addField file id field).tables = (r.addField file id field).tables := by
  have howner : r'.owner? file id = r.owner? file id := by
    simp only [owner?, table?_congr h, exported?_congr h]
  simp only [addField, updateSymbol, howner, onTable]
  split <;> simp only [h]

end Registry

namespace Symbol

@[simp] theorem id_addField (field : TypedName) (s : Symbol) : (s.addField field).id = s.id := by
  unfold addField
  split <;> rfl

@[simp] theorem isUdt_addField (field : TypedName) (s : Symbol) :
    (s.addField field).isUdt = s.isUdt := by
  unfold addField
  split
  · next hk => simp [isUdt, hk]
  · rfl

end Symbol

end StoragePlan
