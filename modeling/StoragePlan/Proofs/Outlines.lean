import StoragePlan.Proofs.Tables

/-!
Names without handles. Of the symbol that a name means, a check of a body looks at what sort of symbol
it is, where it stands and, if it is a function, at its arguments; the handles of values and fields it
does not look at. The outline of a symbol leaves these handles out, and to look a name up in the outline
of all tables is to find the outline of its symbol.
-/

namespace StoragePlan

/-! ### Symbols -/

namespace Symbol

/-- The symbol without the handles of its value or its fields. -/
def outline (s : Symbol) : Symbol :=
  match s.kind with
  | .var _ => { s with kind := .var 0 }
  | .const _ => { s with kind := .const 0 }
  | .function _ _ => s
  | .udt _ => { s with kind := .udt [] }

@[simp] theorem id_outline (s : Symbol) : s.outline.id = s.id := by
  unfold outline
  split <;> rfl

@[simp] theorem exported_outline (s : Symbol) : s.outline.exported = s.exported := by
  unfold outline
  split <;> rfl

@[simp] theorem position_outline (s : Symbol) : s.outline.position = s.position := by
  unfold outline
  split <;> rfl

@[simp] theorem isUdt_outline (s : Symbol) : s.outline.isUdt = s.isUdt := by
  obtain ⟨id, kind, exported, position⟩ := s
  cases kind <;> rfl

@[simp] theorem isValue_outline (s : Symbol) : s.outline.isValue = s.isValue := by
  obtain ⟨id, kind, exported, position⟩ := s
  cases kind <;> rfl

@[simp] theorem outline_addField (field : TypedName) (s : Symbol) :
    (s.addField field).outline = s.outline := by
  obtain ⟨id, kind, exported, position⟩ := s
  cases kind <;> rfl

section Congr

variable {s t : Symbol} (h : t.outline = s.outline)

include h

theorem position_congr : t.position = s.position := by
  rw [← position_outline t, h, position_outline]

/-- Symbols with the same outline are of one sort, and functions among them are the same. -/
theorem kind_congr :
    (∃ k k', s.kind = .var k ∧ t.kind = .var k') ∨ (∃ k k', s.kind = .const k ∧ t.kind = .const k') ∨
    (∃ fs fs', s.kind = .udt fs ∧ t.kind = .udt fs') ∨
    ∃ args returns, s.kind = .function args returns ∧ t.kind = .function args returns := by
  obtain ⟨id, kind, exported, position⟩ := s
  obtain ⟨id', kind', exported', position'⟩ := t
  cases kind <;> cases kind' <;> simp_all [outline]

end Congr

/-- A search that outlines do not change finds the outline of what it found. -/
theorem find?_outline {test : Symbol → Bool} (h : ∀ s : Symbol, test s.outline = test s)
    (ss : List Symbol) : (ss.map outline).find? test = (ss.find? test).map outline := by
  have htest : test ∘ outline = test := funext h
  rw [List.find?_map, htest]

end Symbol

/-! ### Tables -/

namespace SymbolTable

/-- The table with the outlines of its symbols. -/
def outline (t : SymbolTable) : SymbolTable :=
  { t with scopes := t.scopes.map (·.map Symbol.outline), symbols := t.symbols.map Symbol.outline }

variable (t : SymbolTable) (id : String)

theorem visible_outline : t.outline.visible = t.visible.map Symbol.outline := by
  simp [visible, outline, List.map_flatten]

theorem local?_outline : t.outline.local? id = (t.local? id).map Symbol.outline := by
  rw [local?, visible_outline]
  exact Symbol.find?_outline (by simp) t.visible

theorem exported?_outline : t.outline.exported? id = (t.exported? id).map Symbol.outline :=
  Symbol.find?_outline (by simp) t.symbols

theorem current?_outline : t.outline.current? id = (t.current? id).map Symbol.outline := by
  obtain ⟨file, outer, scopes, symbols⟩ := t
  cases scopes with
  | nil => exact Symbol.find?_outline (by simp) symbols
  | cons scope outer =>
    simp only [current?, outline, List.map_cons, ← List.map_reverse]
    exact Symbol.find?_outline (by simp) scope.reverse

theorem outline_add (s : Symbol) : (t.add s).outline = t.outline.add s.outline := by
  obtain ⟨file, outer, scopes, symbols⟩ := t
  cases scopes <;> simp [add, outline]

theorem outline_openScope : t.openScope.outline = t.outline.openScope := rfl

theorem outline_closeScope : t.closeScope.outline = t.outline.closeScope := by
  simp [closeScope, outline, List.map_tail]

/-- A change of one symbol that its outline does not show. -/
theorem map_updateFirstIn {test : Symbol → Bool} {f : Symbol → Symbol}
    (hf : ∀ s, (f s).outline = s.outline) (scopes : List (List Symbol)) :
    (updateFirstIn test f scopes).map (·.map Symbol.outline) = scopes.map (·.map Symbol.outline) := by
  induction scopes with
  | nil => rfl
  | cons scope rest ih =>
    unfold updateFirstIn
    split
    · rw [List.map_cons, List.map_cons, map_updateFirst hf]
    · rw [List.map_cons, List.map_cons, ih]

theorem outline_updateLocal {f : Symbol → Symbol} (hf : ∀ s, (f s).outline = s.outline) :
    (t.updateLocal id f).outline = t.outline := by
  unfold updateLocal
  split
  · simp only [outline, map_updateFirstIn hf]
  · simp only [outline, map_updateFirst hf]

theorem outline_updateExported {f : Symbol → Symbol} (hf : ∀ s, (f s).outline = s.outline) :
    (t.updateExported id f).outline = t.outline := by
  simp only [updateExported, outline, map_updateFirst hf]

end SymbolTable

/-! ### All tables -/

namespace Registry

/-- The tables of all files with the outlines of their symbols, and no types. -/
def outline (r : Registry) : Registry := ⟨r.tables.map SymbolTable.outline, .empty⟩

variable (r : Registry) (file : String)

theorem outline_congr {r r' : Registry} (h : r'.tables = r.tables) : r'.outline = r.outline := by
  rw [outline, outline, h]

theorem table?_outline : r.outline.table? file = (r.table? file).map SymbolTable.outline :=
  List.find?_map

theorem exported?_outline (id : String) :
    r.outline.exported? id file = (r.exported? id file).map Symbol.outline := by
  rw [exported?, table?_outline, exported?]
  cases r.table? file with
  | none => rfl
  | some t => exact t.exported?_outline id

theorem current?_outline (id : String) :
    r.outline.current? file id = (r.current? file id).map Symbol.outline := by
  rw [current?, table?_outline, current?]
  cases r.table? file with
  | none => rfl
  | some t => exact t.current?_outline id

theorem lookup?_outline (id : String) :
    r.outline.lookup? file id = (r.lookup? file id).map Symbol.outline := by
  rw [lookup?, table?_outline, lookup?]
  cases r.table? file with
  | none => rfl
  | some t =>
    dsimp only [Option.map_some]
    rw [t.local?_outline]
    cases t.local? id with
    | some s => rfl
    | none =>
      dsimp only [Option.map_none]
      rw [List.map_findSome?]
      congr 1
      funext other
      exact exported?_outline r other id

/-- A change of one table, as its outline shows it. -/
theorem outline_onTable {f g : SymbolTable → SymbolTable}
    (h : ∀ t : SymbolTable, (f t).outline = g t.outline) :
    (r.onTable file f).outline = r.outline.onTable file g := by
  have hmap : ∀ ts : List SymbolTable, (updateFirst (·.file == file) f ts).map SymbolTable.outline =
      updateFirst (·.file == file) g (ts.map SymbolTable.outline) := by
    intro ts
    induction ts with
    | nil => rfl
    | cons t ts ih =>
      have hfile : (t.outline.file == file) = (t.file == file) := rfl
      simp only [updateFirst, List.map_cons, hfile]
      split
      · rw [List.map_cons, h]
      · rw [List.map_cons, ih]
  simp only [onTable, outline, hmap]

theorem outline_addSymbol (s : Symbol) :
    (r.addSymbol file s).outline = r.outline.addSymbol file s.outline :=
  r.outline_onTable file fun t => t.outline_add s

theorem outline_openScope : (r.openScope file).outline = r.outline.openScope file :=
  r.outline_onTable file fun t => t.outline_openScope

theorem outline_closeScope : (r.closeScope file).outline = r.outline.closeScope file :=
  r.outline_onTable file fun t => t.outline_closeScope

/-- Fields are added to a type without a change of the outline. -/
theorem outline_addField (id : String) (field : TypedName) :
    (r.addField file id field).outline = r.outline := by
  have hid : ∀ (other : String) {f : SymbolTable → SymbolTable},
      (∀ t : SymbolTable, (f t).outline = t.outline) → (r.onTable other f).outline = r.outline := by
    intro other f hf
    rw [r.outline_onTable other (g := fun t => t) hf, onTable_id]
  unfold addField updateSymbol
  split
  · rfl
  · next owner _ =>
    refine hid owner fun t => ?_
    split
    · exact t.outline_updateLocal id fun s => s.outline_addField field
    · exact t.outline_updateExported id fun s => s.outline_addField field

end Registry

/-! ### Arguments of functions -/

/-- The arguments of a function have handles below `n`. -/
def Symbol.Within (n : Nat) (s : Symbol) : Prop :=
  ∀ args returns, s.kind = .function args returns → ∀ a ∈ args, a.type < n

def SymbolTable.Within (n : Nat) (t : SymbolTable) : Prop := ∀ s ∈ t.visible, s.Within n

def Registry.Within (n : Nat) (r : Registry) : Prop := ∀ t ∈ r.tables, t.Within n

variable {n m : Nat}

theorem Symbol.Within.mono {s : Symbol} (h : s.Within n) (hm : n ≤ m) : s.Within m :=
  fun args returns hk a ha => Nat.lt_of_lt_of_le (h args returns hk a ha) hm

theorem Symbol.within_outline {s : Symbol} : s.outline.Within n ↔ s.Within n := by
  obtain ⟨id, kind, exported, position⟩ := s
  cases kind with
  | function args returns => exact Iff.rfl
  | _ => simp [Symbol.Within, Symbol.outline]

namespace SymbolTable

variable {t : SymbolTable}

theorem Within.outline (h : t.Within n) : t.outline.Within n := by
  intro s hs
  rw [visible_outline] at hs
  obtain ⟨x, hx, rfl⟩ := List.mem_map.mp hs
  exact Symbol.within_outline.mpr (h x hx)

theorem Within.grow (h : t.Within n) {ss : List Symbol} (hs : ∀ s ∈ ss, s.Within n) :
    (t.grow ss).Within n := by
  intro x hx
  obtain ⟨file, outer, scopes, symbols⟩ := t
  have hx' : x ∈ ss ∨ x ∈ visible ⟨file, outer, scopes, symbols⟩ := by
    cases scopes with
    | nil => simpa [SymbolTable.grow, visible, or_comm] using hx
    | cons scope outer => simpa [SymbolTable.grow, visible, or_assoc] using hx
  exact hx'.elim (hs x) (h x)

theorem Within.add (h : t.Within n) {s : Symbol} (hs : s.Within n) : (t.add s).Within n := by
  rw [add_eq_grow]
  exact h.grow (by simpa using hs)

theorem Within.openScope (h : t.Within n) : t.openScope.Within n := h

theorem Within.closeScope (h : t.Within n) : t.closeScope.Within n := by
  intro s hs
  refine h s ?_
  obtain ⟨file, outer, scopes, symbols⟩ := t
  cases scopes with
  | nil => exact hs
  | cons scope outer =>
    simp only [SymbolTable.closeScope, visible, List.tail_cons, List.mem_append, List.flatten_cons]
      at hs ⊢
    exact hs.imp .inr id

theorem Within.addOuter (h : t.Within n) (imported : String) : (t.addOuter imported).Within n := by
  unfold SymbolTable.addOuter
  split <;> exact h

end SymbolTable

namespace Registry

variable {r : Registry} {file : String}

theorem Within.mono (h : r.Within n) (hm : n ≤ m) : r.Within m :=
  fun t ht s hs => (h t ht s hs).mono hm

theorem Within.outline (h : r.Within n) : r.outline.Within n := by
  intro t ht
  obtain ⟨t', ht', rfl⟩ := List.mem_map.mp ht
  exact (h t' ht').outline

theorem Within.onTable (h : r.Within n) {f : SymbolTable → SymbolTable}
    (hf : ∀ t : SymbolTable, t.Within n → (f t).Within n) : (r.onTable file f).Within n :=
  forall_mem_updateFirst hf h

theorem Within.addFile (h : r.Within n) (file : String) : (r.addFile file).Within n := by
  unfold Registry.addFile
  split
  · exact h
  · intro t ht
    rcases List.mem_append.mp ht with ht | ht
    · exact h t ht
    · rw [List.mem_singleton.mp ht]
      intro s hs
      cases hs

/-- The function that a name means has its arguments below `n`. -/
theorem Within.lookup? (h : r.Within n) {id : String} {x : Symbol}
    (hx : r.lookup? file id = some x) : x.Within n := by
  unfold Registry.lookup? at hx
  split at hx
  · cases hx
  · next t ht =>
    split at hx
    · next hl =>
      cases hx
      exact h t (table?_mem ht) x (List.mem_of_find?_eq_some hl)
    · obtain ⟨other, _, he⟩ := List.exists_of_findSome?_eq_some hx
      obtain ⟨t', ht', hx'⟩ := Option.bind_eq_some_iff.mp he
      exact h t' (table?_mem ht') x (List.mem_append_right _ (List.mem_of_find?_eq_some hx'))

end Registry

end StoragePlan
