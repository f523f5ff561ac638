import StoragePlan.Proofs.Tables

/-!
What a name means. All symbols that a file sees form one list, from its innermost scope out to the
exports of its imports, and a name means the first of them that has it. The look-up that reads and
the one that changes a symbol search in different ways; both end at the place of that first symbol,
so that a field is added there and nowhere else.
-/

namespace StoragePlan

/-! ### Places -/

/-- Where a symbol stands: in the table of a file, there in one of the open scopes, counted from the
innermost, or at the top level, and there at an index. -/
structure Spot where
  file : String
  scope : Option Nat
  index : Nat
  deriving DecidableEq, Repr

/-- A symbol at its place. -/
structure Occurrence where
  place : Spot
  symbol : Symbol
  deriving DecidableEq, Repr

/-- The symbols of one scope, or of the top level, at their places. -/
def occurrences (file : String) (scope : Option Nat) (ss : List Symbol) : List Occurrence :=
  ss.zipIdx.map fun (s, i) => ⟨⟨file, scope, i⟩, s⟩

namespace SymbolTable

/-- The symbols of one open scope, newest first, or those at the top level, oldest first. -/
def row (t : SymbolTable) : Option Nat → List Symbol
  | some i => t.scopes[i]?.getD []
  | none => t.symbols

/-- The symbols of the open scopes, innermost scope first. -/
def locals (t : SymbolTable) : List Occurrence :=
  t.scopes.zipIdx.flatMap fun (scope, i) => occurrences t.file (some i) scope

def topLevel (t : SymbolTable) : List Occurrence := occurrences t.file none t.symbols

/-- What the files that import this one see of it. -/
def offered (t : SymbolTable) : List Occurrence := t.topLevel.filter (·.symbol.exported)

/-- Everything about a table but its symbols: its file, its imports, and how many symbols each scope
and the top level have. -/
def shape (t : SymbolTable) : String × List String × List Nat × Nat :=
  (t.file, t.outer, t.scopes.map (·.length), t.symbols.length)

end SymbolTable

namespace Registry

def at? (r : Registry) (p : Spot) : Option Symbol :=
  (r.table? p.file).bind fun t => (t.row p.scope)[p.index]?

def offered (r : Registry) (file : String) : List Occurrence :=
  match r.table? file with
  | none => []
  | some t => t.offered

/-- All symbols that a file sees: those of its open scopes, those at its top level, and those that
its imports export, in the order of the imports. -/
def inSight (r : Registry) (file : String) : List Occurrence :=
  match r.table? file with
  | none => []
  | some t => t.locals ++ t.topLevel ++ t.outer.flatMap r.offered

/-- The first symbol in sight with a name. -/
def meaning? (r : Registry) (file id : String) : Option Occurrence :=
  (r.inSight file).find? (·.symbol.id == id)

/-- The symbol at one place may be another one; all else is the same. -/
structure DiffersAt (p : Spot) (r r' : Registry) : Prop where
  elsewhere : ∀ q, q ≠ p → r'.at? q = r.at? q
  shapes : r'.tables.map SymbolTable.shape = r.tables.map SymbolTable.shape
  types : r'.types = r.types

end Registry

/-! ### Searching places -/

section Search

variable {test : Symbol → Bool} {file : String} {scope : Option Nat} {ss : List Symbol}

theorem map_symbol_occurrences : (occurrences file scope ss).map (·.symbol) = ss := by
  rw [occurrences, List.map_map]
  exact List.zipIdx_map_fst 0 ss

/-- A search among placed symbols ends at the index where one among the symbols does. -/
theorem find?_occurrences : (occurrences file scope ss).find? (fun o => test o.symbol) =
    (ss.findIdx? test).bind fun i => ss[i]?.map fun s => ⟨⟨file, scope, i⟩, s⟩ := by
  have hfrom : ∀ k, ((ss.zipIdx k).map fun (s, i) => (⟨⟨file, scope, i⟩, s⟩ : Occurrence)).find?
      (fun o => test o.symbol) =
        (ss.findIdx? test).bind fun i => ss[i]?.map fun s => ⟨⟨file, scope, k + i⟩, s⟩ := by
    intro k
    induction ss generalizing k with
    | nil => rfl
    | cons s ss ih =>
      rw [List.zipIdx_cons, List.map_cons, List.find?_cons, List.findIdx?_cons]
      cases hs : test s with
      | true => simp
      | false =>
        simp only [ih, Option.bind_map, Function.comp_def, List.getElem?_cons_succ,
          Bool.false_eq_true, if_false, Nat.add_assoc, Nat.add_comm 1]
  rw [occurrences, hfrom]
  simp only [Nat.zero_add]

theorem find?_occurrences_eq_some (test : Symbol → Bool) {o : Occurrence}
    (h : (occurrences file scope ss).find? (fun o => test o.symbol) = some o) :
    ∃ i s, o = ⟨⟨file, scope, i⟩, s⟩ ∧ ss.findIdx? test = some i ∧ ss[i]? = some s := by
  rw [find?_occurrences, Option.bind_eq_some_iff] at h
  obtain ⟨i, hi, h⟩ := h
  obtain ⟨s, hs, rfl⟩ := Option.map_eq_some_iff.mp h
  exact ⟨i, s, rfl, hi, hs⟩

theorem map_find?_occurrences (test : Symbol → Bool) :
    ((occurrences file scope ss).find? fun o => test o.symbol).map (·.symbol) = ss.find? test := by
  have hsymbols : (occurrences file scope ss).map (·.symbol) = ss := map_symbol_occurrences
  conv => rhs; rw [← hsymbols]
  rw [List.find?_map]
  rfl

/-- A search through scopes ends in the first scope that has such a symbol. -/
theorem find?_locals (test : Symbol → Bool) {t : SymbolTable} :
    t.locals.find? (fun o => test o.symbol) =
    (t.scopes.findIdx? (·.any test)).bind fun i => t.scopes[i]?.bind fun scope =>
      (occurrences t.file (some i) scope).find? (fun o => test o.symbol) := by
  have hfrom : ∀ (scopes : List (List Symbol)) k,
      ((scopes.zipIdx k).flatMap fun (scope, i) => occurrences t.file (some i) scope).find?
        (fun o => test o.symbol) =
      (scopes.findIdx? (·.any test)).bind fun i => scopes[i]?.bind fun scope =>
        (occurrences t.file (some (k + i)) scope).find? (fun o => test o.symbol) := by
    intro scopes k
    induction scopes generalizing k with
    | nil => rfl
    | cons scope scopes ih =>
      have hfound : ((occurrences t.file (some k) scope).find? fun o => test o.symbol).isSome =
          scope.any test := by
        rw [← Option.isSome_map (f := fun o : Occurrence => o.symbol), map_find?_occurrences,
          List.isSome_find?]
      rw [List.zipIdx_cons, List.flatMap_cons, List.find?_append, ih, List.findIdx?_cons]
      cases hs : scope.any test with
      | true => simp [Option.or_of_isSome (hfound.trans hs)]
      | false =>
        have hnone := Option.isSome_eq_false_iff.mp (hfound.trans hs)
        rw [Option.isNone_iff_eq_none] at hnone
        simp only [hnone, Option.none_or, Option.bind_map, Function.comp_def,
          List.getElem?_cons_succ, Bool.false_eq_true, if_false, Nat.add_assoc, Nat.add_comm 1]
  rw [SymbolTable.locals, hfrom]
  simp only [Nat.zero_add]

end Search

namespace SymbolTable

variable {t : SymbolTable} {test : Symbol → Bool} {f : Symbol → Symbol} {id : String}
  {o : Occurrence}

theorem map_symbol_locals : t.locals.map (·.symbol) = t.scopes.flatten := by
  rw [locals, List.map_flatMap]
  simp only [map_symbol_occurrences]
  rw [List.flatMap_def, List.zipIdx_map_fst]

/-! ### Where symbols are put -/

/-- In an open scope a new symbol is the first of the innermost scope. -/
theorem row_add_of_open (h : t.scopes ≠ []) (s : Symbol) :
    (t.add s).row (some 0) = s :: t.row (some 0) := by
  obtain ⟨scope, outer, hs⟩ := List.exists_cons_of_ne_nil h
  simp [add, row, hs]

/-- So it comes before all others of the open scopes. -/
theorem locals_add_of_open (h : t.scopes ≠ []) (s : Symbol) :
    (t.add s).locals.map (·.symbol) = s :: t.locals.map (·.symbol) := by
  obtain ⟨scope, outer, hs⟩ := List.exists_cons_of_ne_nil h
  rw [map_symbol_locals, map_symbol_locals]
  simp [add, hs]

theorem topLevel_add_of_open (h : t.scopes ≠ []) (s : Symbol) : (t.add s).topLevel = t.topLevel := by
  obtain ⟨scope, outer, hs⟩ := List.exists_cons_of_ne_nil h
  simp [topLevel, add, hs]

theorem offered_add_of_open (h : t.scopes ≠ []) (s : Symbol) : (t.add s).offered = t.offered := by
  rw [offered, topLevel_add_of_open h, offered]

/-- Where no scope is open, a new symbol is the last of the top level. -/
theorem topLevel_add_of_closed (h : t.scopes = []) (s : Symbol) :
    (t.add s).topLevel = t.topLevel ++ [⟨⟨t.file, none, t.symbols.length⟩, s⟩] := by
  simp [topLevel, occurrences, add, h, List.zipIdx_append]

theorem offered_add_of_closed (h : t.scopes = []) (s : Symbol) : (t.add s).offered =
    t.offered ++ if s.exported then [⟨⟨t.file, none, t.symbols.length⟩, s⟩] else [] := by
  rw [offered, topLevel_add_of_closed h, List.filter_append, offered]
  cases hs : s.exported <;> simp [hs]

theorem outer_add (s : Symbol) : (t.add s).outer = t.outer := by
  unfold add
  split <;> rfl

/-- A scope that is opened is the innermost, and it is empty. -/
theorem row_openScope (i : Nat) :
    t.openScope.row (some 0) = [] ∧ t.openScope.row (some (i + 1)) = t.row (some i) := by
  simp [openScope, row]

theorem locals_openScope : t.openScope.locals.map (·.symbol) = t.locals.map (·.symbol) := by
  rw [map_symbol_locals, map_symbol_locals]
  rfl

/-- A file that is imported for the first time comes after the others. -/
theorem addOuter_of_new {imported : String} (h : imported ∉ t.outer) :
    t.addOuter imported = { t with outer := t.outer ++ [imported] } := by
  simp [addOuter, h]

theorem addOuter_of_mem {imported : String} (h : imported ∈ t.outer) :
    t.addOuter imported = t := by
  simp [addOuter, h]

/-! ### Changing a table -/

/-- The table has the symbol at its place, and what `t'` has there is made of it by `f`; elsewhere
the two have the same symbols. -/
structure ChangedAt (t : SymbolTable) (o : Occurrence) (f : Symbol → Symbol) (t' : SymbolTable) :
    Prop where
  file : o.place.file = t.file
  stands : (t.row o.place.scope)[o.place.index]? = some o.symbol
  row : ∀ scope i, (t'.row scope)[i]? =
    if scope = o.place.scope ∧ i = o.place.index then (t.row scope)[i]?.map f
    else (t.row scope)[i]?

/-- The change of the first symbol at the top level that passes a test. -/
theorem changedAt_topLevel (test : Symbol → Bool)
    (h : t.topLevel.find? (fun o => test o.symbol) = some o) :
    t.ChangedAt o f { t with symbols := updateFirst test f t.symbols } := by
  obtain ⟨i, s, rfl, hi, hs⟩ := find?_occurrences_eq_some test h
  refine ⟨rfl, hs, fun scope j => ?_⟩
  cases scope with
  | some k => simp [row]
  | none => simp only [row, getElem?_updateFirst, hi, true_and, Option.some_inj, eq_comm]

theorem isSome_find?_locals :
    (t.locals.find? fun o => test o.symbol).isSome = t.scopes.any (·.any test) := by
  have hmap : (t.locals.find? fun o => test o.symbol).map (·.symbol) =
      t.scopes.flatten.find? test := by
    rw [← map_symbol_locals, List.find?_map]
    rfl
  rw [← Option.isSome_map (f := fun o : Occurrence => o.symbol), hmap, List.isSome_find?,
    List.any_flatten]

theorem updateLocal_of_isSome (h : (t.locals.find? (·.symbol.id == id)).isSome) :
    t.updateLocal id f = { t with
      scopes := updateFirst (·.any (·.id == id)) (updateFirst (·.id == id) f) t.scopes } := by
  rw [updateLocal, if_pos (isSome_find?_locals.symm.trans h), updateFirstIn_eq]

theorem updateLocal_of_none (h : t.locals.find? (·.symbol.id == id) = none) :
    t.updateLocal id f = { t with symbols := updateFirst (·.id == id) f t.symbols } := by
  have hnot : ¬ (t.scopes.any (·.any (·.id == id))) := by
    rw [← isSome_find?_locals, h]
    exact Bool.false_ne_true
  rw [updateLocal, if_neg hnot]

/-- The change of the first symbol of the open scopes with a name. -/
theorem changedAt_locals (h : t.locals.find? (·.symbol.id == id) = some o) :
    t.ChangedAt o f (t.updateLocal id f) := by
  rw [updateLocal_of_isSome (by rw [h]; rfl)]
  rw [find?_locals (·.id == id), Option.bind_eq_some_iff] at h
  obtain ⟨k, hk, h⟩ := h
  obtain ⟨scope, hscope, h⟩ := Option.bind_eq_some_iff.mp h
  obtain ⟨i, s, rfl, hi, hs⟩ := find?_occurrences_eq_some (·.id == id) h
  refine ⟨rfl, by simp [row, hscope, hs], fun sc j => ?_⟩
  cases sc with
  | none => simp [row]
  | some m =>
    simp only [row, getElem?_updateFirst, hk, Option.some_inj]
    by_cases hm : k = m
    · subst hm
      simp only [if_true, hscope, Option.map_some, Option.getD_some, getElem?_updateFirst, hi,
        true_and, Option.some_inj, eq_comm]
    · rw [if_neg hm, if_neg fun h => hm h.1.symm]

/-- What a table finds among its own symbols is what it changes. -/
theorem changedAt_own (h : (t.locals ++ t.topLevel).find? (·.symbol.id == id) = some o) :
    t.ChangedAt o f (t.updateLocal id f) := by
  rw [List.find?_append] at h
  cases hl : t.locals.find? (·.symbol.id == id) with
  | some o' =>
    rw [hl, Option.some_or] at h
    cases h
    exact changedAt_locals hl
  | none =>
    rw [hl, Option.none_or] at h
    rw [updateLocal_of_none hl]
    exact changedAt_topLevel (·.id == id) h

theorem find?_offered : t.offered.find? (·.symbol.id == id) =
    t.topLevel.find? fun o => o.symbol.exported && o.symbol.id == id := by
  rw [offered, List.find?_filter]
  congr 1
  funext o
  rw [Bool.decide_and, Bool.decide_eq_true, Bool.decide_eq_true]

/-- What a table finds among its exports is what it changes. -/
theorem changedAt_offered (h : t.offered.find? (·.symbol.id == id) = some o) :
    t.ChangedAt o f (t.updateExported id f) :=
  changedAt_topLevel (fun s => s.exported && s.id == id) (find?_offered.symm.trans h)

theorem shape_updateExported : (t.updateExported id f).shape = t.shape := by
  simp [updateExported, shape, length_updateFirst]

theorem shape_updateLocal : (t.updateLocal id f).shape = t.shape := by
  unfold updateLocal
  split
  · have hlengths : (updateFirst (·.any (·.id == id)) (updateFirst (·.id == id) f) t.scopes).map
        (·.length) = t.scopes.map (·.length) := map_updateFirst (fun _ => length_updateFirst _) _
    simp [shape, updateFirstIn_eq, hlengths]
  · simp [shape, length_updateFirst]

/-- A table is determined by its shape and the symbols at its places. -/
theorem eq_of_rows {t' : SymbolTable} (hshape : t'.shape = t.shape)
    (hrow : ∀ (scope : Option Nat) (i : Nat), (t'.row scope)[i]? = (t.row scope)[i]?) : t' = t := by
  obtain ⟨file, outer, scopes, symbols⟩ := t
  obtain ⟨file', outer', scopes', symbols'⟩ := t'
  simp only [shape, Prod.mk.injEq] at hshape
  obtain ⟨rfl, rfl, hlengths, -⟩ := hshape
  have hsymbols : symbols' = symbols := List.ext_getElem? (hrow none)
  have hscopes : scopes' = scopes := by
    have hlength : scopes'.length = scopes.length := by simpa using congrArg List.length hlengths
    refine List.ext_getElem hlength fun i hi hi' => ?_
    simpa [row, hi, hi'] using List.ext_getElem? (hrow (some i))
  rw [hsymbols, hscopes]

/-! ### Searching a table -/

theorem map_find?_own : ((t.locals ++ t.topLevel).find? (·.symbol.id == id)).map (·.symbol) =
    t.local? id := by
  have hown : (t.locals ++ t.topLevel).map (·.symbol) = t.visible := by
    rw [List.map_append, map_symbol_locals, topLevel, map_symbol_occurrences, visible]
  rw [local?, ← hown, List.find?_map]
  rfl

theorem map_find?_offered : (t.offered.find? (·.symbol.id == id)).map (·.symbol) =
    t.exported? id := by
  rw [find?_offered]
  exact map_find?_occurrences fun s => s.exported && s.id == id

/-- What is exported is among a table's own symbols. -/
theorem isSome_local?_of_exported? (h : (t.exported? id).isSome) : (t.local? id).isSome := by
  obtain ⟨s, hs, hid⟩ := List.find?_isSome.mp h
  rw [Bool.and_eq_true] at hid
  exact List.find?_isSome.mpr ⟨s, List.mem_append_right _ hs, hid.2⟩

end SymbolTable

namespace Registry

variable {r : Registry} {file id : String} {f : Symbol → Symbol} {o : Occurrence}

/-! ### Searching all tables -/

theorem map_find?_offered (other : String) :
    ((r.offered other).find? (·.symbol.id == id)).map (·.symbol) = r.exported? id other := by
  rw [offered, exported?]
  cases r.table? other with
  | none => rfl
  | some t => exact SymbolTable.map_find?_offered

theorem isSome_find?_offered (other : String) :
    ((r.offered other).find? (·.symbol.id == id)).isSome = (r.exported? id other).isSome := by
  rw [← map_find?_offered, Option.isSome_map]

theorem meaning?_of_none (h : r.table? file = none) : r.meaning? file id = none := by
  rw [meaning?, inSight, h]
  rfl

theorem meaning?_of_table? {t : SymbolTable} (h : r.table? file = some t) :
    r.meaning? file id = ((t.locals ++ t.topLevel).find? (·.symbol.id == id)).or
      (t.outer.findSome? fun other => (r.offered other).find? (·.symbol.id == id)) := by
  rw [meaning?, inSight, h]
  dsimp only
  rw [List.find?_append, List.find?_flatMap]

/-- The look-up that reads finds the first symbol in sight. -/
theorem lookup?_eq_meaning? : r.lookup? file id = (r.meaning? file id).map (·.symbol) := by
  cases ht : r.table? file with
  | none => rw [meaning?_of_none ht, lookup?, ht, Option.map_none]
  | some t =>
    have houter : (t.outer.findSome? fun other => (r.offered other).find? (·.symbol.id == id)).map
        (·.symbol) = t.outer.findSome? (r.exported? id) := by
      rw [List.map_findSome?]
      congr 1
      funext other
      exact map_find?_offered other
    rw [meaning?_of_table? ht, Option.map_or, SymbolTable.map_find?_own, houter, lookup?, ht]
    dsimp only
    cases t.local? id <;> rfl

theorem lookup?_eq_find? :
    r.lookup? file id = ((r.inSight file).map (·.symbol)).find? (·.id == id) := by
  rw [lookup?_eq_meaning?, meaning?, List.find?_map]
  rfl

/-! ### The order of what is in sight -/

section Order

variable {t : SymbolTable} {g : SymbolTable → SymbolTable}

/-- A change of one table that leaves its exports as they are shows in no other file. -/
theorem offered_onTable (hfile : ∀ t, (g t).file = t.file)
    (h : ∀ t, r.table? file = some t → (g t).offered = t.offered) (other : String) :
    (r.onTable file g).offered other = r.offered other := by
  unfold offered
  by_cases ho : other = file
  · rw [ho, table?_onTable hfile]
    cases ht : r.table? file with
    | none => rfl
    | some t => exact h t ht
  · rw [table?_onTable_of_ne hfile ho]

theorem inSight_of_table? (ht : r.table? file = some t) :
    r.inSight file = t.locals ++ t.topLevel ++ t.outer.flatMap r.offered := by
  rw [inSight, ht]

/-- What a file sees after such a change. -/
theorem inSight_onTable (ht : r.table? file = some t) (hfile : ∀ t, (g t).file = t.file)
    (h : (g t).offered = t.offered) : (r.onTable file g).inSight file =
      (g t).locals ++ (g t).topLevel ++ (g t).outer.flatMap r.offered := by
  have ht' : (r.onTable file g).table? file = some (g t) := by
    rw [table?_onTable hfile, ht, Option.map_some]
  have hoffered : (r.onTable file g).offered = r.offered :=
    funext (offered_onTable hfile fun u hu => by
      cases ht.symm.trans hu
      exact h)
  rw [inSight_of_table? ht', hoffered]

theorem file_add (s : Symbol) (t : SymbolTable) : (t.add s).file = t.file := by
  rw [SymbolTable.add_eq_grow, SymbolTable.file_grow]

/-- In an open scope the newest symbol is the first in sight. -/
theorem inSight_addSymbol_of_open (ht : r.table? file = some t) (h : t.scopes ≠ []) (s : Symbol) :
    ((r.addSymbol file s).inSight file).map (·.symbol) = s :: (r.inSight file).map (·.symbol) := by
  rw [addSymbol, inSight_onTable ht (file_add s) (SymbolTable.offered_add_of_open h s),
    inSight_of_table? ht, SymbolTable.topLevel_add_of_open h, SymbolTable.outer_add]
  simp only [List.map_append, SymbolTable.locals_add_of_open h, List.cons_append]

/-- At the top level the newest symbol comes after all others of the file, and before the exports of
its imports. -/
theorem inSight_addSymbol_of_closed (ht : r.table? file = some t) (h : t.scopes = []) (s : Symbol) :
    (r.addSymbol file s).inSight file =
      t.topLevel ++ [⟨⟨file, none, t.symbols.length⟩, s⟩] ++
        t.outer.flatMap (r.addSymbol file s).offered := by
  have ht' : (r.addSymbol file s).table? file = some (t.add s) := by
    rw [addSymbol, table?_onTable (file_add s), ht, Option.map_some]
  have hlocals : (t.add s).locals = [] := by simp [SymbolTable.locals, SymbolTable.add, h]
  rw [inSight_of_table? ht', hlocals, List.nil_append, SymbolTable.topLevel_add_of_closed h,
    SymbolTable.outer_add, table?_file ht]

/-- The files that import this one see it, if it is exported, after all others of the file. -/
theorem offered_addSymbol_of_closed (ht : r.table? file = some t) (h : t.scopes = []) (s : Symbol) :
    (r.addSymbol file s).offered file =
      r.offered file ++ if s.exported then [⟨⟨file, none, t.symbols.length⟩, s⟩] else [] := by
  rw [offered, addSymbol, table?_onTable (file_add s), ht, Option.map_some]
  dsimp only
  rw [SymbolTable.offered_add_of_closed h, offered, ht, table?_file ht]

/-- A new scope hides nothing. -/
theorem inSight_openScope :
    ((r.openScope file).inSight file).map (·.symbol) = (r.inSight file).map (·.symbol) := by
  cases ht : r.table? file with
  | none =>
    have ht' : (r.openScope file).table? file = none := by
      rw [openScope, table?_onTable (f := (·.openScope)) fun _ => rfl, ht, Option.map_none]
    rw [inSight, ht', inSight, ht]
  | some t =>
    rw [openScope, inSight_onTable ht (g := (·.openScope)) (fun _ => rfl) rfl, inSight_of_table? ht]
    simp only [List.map_append, SymbolTable.locals_openScope]
    rfl

/-- What a new import exports is seen after all that was in sight before. -/
theorem inSight_addOuter {imported : String} (ht : r.table? file = some t) (h : imported ∉ t.outer) :
    (r.addOuter file imported).inSight file = r.inSight file ++ r.offered imported := by
  have hoffered : (t.addOuter imported).offered = t.offered := by
    rw [SymbolTable.addOuter_of_new h]
    rfl
  rw [addOuter, inSight_onTable ht (fun t => t.file_addOuter imported) hoffered,
    inSight_of_table? ht, SymbolTable.addOuter_of_new h]
  simp [SymbolTable.locals, SymbolTable.topLevel]

end Order

/-- Where a name means nothing no table owns it. -/
theorem owner?_of_none (h : r.meaning? file id = none) : r.owner? file id = none := by
  cases ht : r.table? file with
  | none => rw [owner?, ht]
  | some t =>
    rw [meaning?_of_table? ht, Option.or_eq_none_iff] at h
    have hlocal : t.local? id = none := by rw [← SymbolTable.map_find?_own, h.1, Option.map_none]
    rw [owner?, ht]
    dsimp only
    rw [hlocal, if_neg (by simp), List.find?_eq_none]
    intro other hother
    rw [← isSome_find?_offered, List.findSome?_eq_none_iff.mp h.2 other hother]
    exact Bool.false_ne_true

/-- The owner's table finds the same symbol: among all its own if it is the table of the file
itself, and among its exports if it is another one. -/
theorem owner?_of_meaning? (h : r.meaning? file id = some o) :
    ∃ owner t, r.owner? file id = some owner ∧ r.table? owner = some t ∧
      (if owner == file then t.locals ++ t.topLevel else t.offered).find? (·.symbol.id == id) =
        some o := by
  cases ht : r.table? file with
  | none => cases (meaning?_of_none ht).symm.trans h
  | some t =>
    rw [meaning?_of_table? ht] at h
    cases hown : (t.locals ++ t.topLevel).find? (·.symbol.id == id) with
    | some o' =>
      rw [hown, Option.some_or] at h
      cases h
      have hlocal : (t.local? id).isSome := by
        rw [← SymbolTable.map_find?_own, hown]
        rfl
      refine ⟨file, t, ?_, ht, ?_⟩
      · rw [owner?, ht]
        exact if_pos hlocal
      · rw [if_pos (beq_self_eq_true file), hown]
    | none =>
      rw [hown, Option.none_or, findSome?_eq_bind_find?] at h
      obtain ⟨owner, howner, ho⟩ := Option.bind_eq_some_iff.mp h
      have hlocal : t.local? id = none := by rw [← SymbolTable.map_find?_own, hown, Option.map_none]
      have hexports : (r.exported? id owner).isSome := by
        rw [← isSome_find?_offered, ho]
        rfl
      -- a file that imports itself finds no export that it has not found already
      have hne : owner ≠ file := by
        rintro rfl
        rw [exported?, ht, Option.bind_some] at hexports
        have hsome := SymbolTable.isSome_local?_of_exported? hexports
        rw [hlocal] at hsome
        cases hsome
      cases hu : r.table? owner with
      | none =>
        rw [offered, hu] at ho
        cases ho
      | some u =>
        refine ⟨owner, u, ?_, hu, ?_⟩
        · simp only [isSome_find?_offered] at howner
          rw [owner?, ht]
          dsimp only
          rw [hlocal, if_neg (by simp), howner]
        · rw [if_neg (by simpa using hne)]
          rwa [offered, hu] at ho

/-- So does the look-up through the owner's table. -/
theorem owned?_eq_meaning? : r.owned? file id = (r.meaning? file id).map (·.symbol) := by
  cases hm : r.meaning? file id with
  | none => rw [owned?, owner?_of_none hm, Option.bind_none, Option.map_none]
  | some o =>
    obtain ⟨owner, t, howner, ht, ho⟩ := owner?_of_meaning? hm
    rw [owned?, howner, Option.bind_some, ht, Option.bind_some, ← ho]
    cases owner == file with
    | true => exact SymbolTable.map_find?_own.symm
    | false => exact SymbolTable.map_find?_offered.symm

/-! ### Changing the symbol that a name means -/

/-- The table of a file is changed at one place. -/
theorem differsAt_onTable {owner : String} {t : SymbolTable} {g : SymbolTable → SymbolTable}
    (ht : r.table? owner = some t) (hg : ∀ t, (g t).shape = t.shape) (h : t.ChangedAt o f (g t)) :
    r.at? o.place = some o.symbol ∧ (r.onTable owner g).at? o.place = some (f o.symbol) ∧
      r.DiffersAt o.place (r.onTable owner g) := by
  have hfile : o.place.file = owner := h.file.trans (table?_file ht)
  have hg' : ∀ t, (g t).file = t.file := fun t => congrArg Prod.fst (hg t)
  refine ⟨?_, ?_, fun q hq => ?_, map_updateFirst hg _, rfl⟩
  · rw [at?, hfile, ht, Option.bind_some, h.stands]
  · rw [at?, hfile, table?_onTable hg', ht, Option.map_some, Option.bind_some, h.row,
      if_pos ⟨rfl, rfl⟩, h.stands, Option.map_some]
  · by_cases hq' : q.file = owner
    · have hne : ¬ (q.scope = o.place.scope ∧ q.index = o.place.index) := fun hsame =>
        hq (by rw [Spot.mk.injEq]; exact ⟨hq'.trans hfile.symm, hsame⟩)
      rw [at?, at?, hq', table?_onTable hg', ht, Option.map_some, Option.bind_some,
        Option.bind_some, h.row, if_neg hne]
    · rw [at?, at?, table?_onTable_of_ne hg' hq']

theorem updateSymbol_of_none (h : r.meaning? file id = none) : r.updateSymbol file id f = r := by
  rw [updateSymbol, owner?_of_none h]

/-- The look-up that changes a symbol changes the first one in sight, and nothing else. -/
theorem updateSymbol_of_meaning? (h : r.meaning? file id = some o) :
    r.at? o.place = some o.symbol ∧ (r.updateSymbol file id f).at? o.place = some (f o.symbol) ∧
      r.DiffersAt o.place (r.updateSymbol file id f) := by
  obtain ⟨owner, t, howner, ht, ho⟩ := owner?_of_meaning? h
  rw [updateSymbol, howner]
  dsimp only
  refine differsAt_onTable ht (fun u => ?_) ?_
  · split
    · exact SymbolTable.shape_updateLocal
    · exact SymbolTable.shape_updateExported
  · split
    · next hfile => exact SymbolTable.changedAt_own (by rwa [if_pos hfile] at ho)
    · next hfile => exact SymbolTable.changedAt_offered (by rwa [if_neg hfile] at ho)

theorem files_of_shapes {r' : Registry}
    (h : r'.tables.map SymbolTable.shape = r.tables.map SymbolTable.shape) :
    r'.tables.map (·.file) = r.tables.map (·.file) := by
  have hfirst := congrArg (List.map Prod.fst) h
  rwa [List.map_map, List.map_map] at hfirst

/-- Registries of one shape with the same symbols at all places are the same, if no two tables are
of one file. -/
theorem eq_of_at? {r' : Registry} (hn : (r.tables.map (·.file)).Nodup)
    (hshapes : r'.tables.map SymbolTable.shape = r.tables.map SymbolTable.shape)
    (htypes : r'.types = r.types) (hat : ∀ p, r'.at? p = r.at? p) : r' = r := by
  have hfiles := files_of_shapes hshapes
  have htables : r'.tables = r.tables := by
    have hlength : r'.tables.length = r.tables.length := by
      simpa using congrArg List.length hshapes
    refine List.ext_getElem hlength fun k hk hk' => ?_
    have hshape : r'.tables[k].shape = r.tables[k].shape := by
      have hk'' := List.getElem_of_eq hshapes (i := k) (by simpa using hk)
      rwa [List.getElem_map, List.getElem_map] at hk''
    have hfile : r'.tables[k].file = r.tables[k].file := congrArg Prod.fst hshape
    have ht : r.table? r.tables[k].file = some r.tables[k] :=
      find?_eq_of_nodup hn (List.getElem_mem hk')
    have ht' : r'.table? r.tables[k].file = some r'.tables[k] := by
      rw [← hfile]
      exact find?_eq_of_nodup (hfiles ▸ hn) (List.getElem_mem hk)
    refine SymbolTable.eq_of_rows hshape fun scope i => ?_
    have hsame := hat ⟨r.tables[k].file, scope, i⟩
    rwa [at?, at?, ht, ht', Option.bind_some, Option.bind_some] at hsame
  obtain ⟨tables, types⟩ := r
  obtain ⟨tables', types'⟩ := r'
  rw [Registry.mk.injEq]
  exact ⟨htables, htypes⟩

/-! ### Registries that come about -/

/-- What can be done to the names of the files of a program. -/
inductive Edit where
  | addFile (file : String)
  | addOuter (file imported : String)
  | addSymbol (file : String) (s : Symbol)
  | addField (file id : String) (field : TypedName)
  | openScope (file : String)
  | closeScope (file : String)
  deriving DecidableEq, Repr

def edit (r : Registry) : Edit → Registry
  | .addFile file => r.addFile file
  | .addOuter file imported => r.addOuter file imported
  | .addSymbol file s => r.addSymbol file s
  | .addField file id field => r.addField file id field
  | .openScope file => r.openScope file
  | .closeScope file => r.closeScope file

/-- The registry after some edits of an empty one. -/
def after (edits : List Edit) : Registry := edits.foldl edit .empty

theorem files_onTable {g : SymbolTable → SymbolTable} (hg : ∀ t, (g t).file = t.file) :
    (r.onTable file g).tables.map (·.file) = r.tables.map (·.file) := map_updateFirst hg _

theorem files_addField {field : TypedName} :
    (r.addField file id field).tables.map (·.file) = r.tables.map (·.file) := by
  rw [addField]
  cases hm : r.meaning? file id with
  | none => rw [updateSymbol_of_none hm]
  | some o =>
    obtain ⟨-, -, hdiffers⟩ := updateSymbol_of_meaning? (f := (·.addField field)) hm
    exact files_of_shapes hdiffers.shapes

/-- No edit gives a file a second table. -/
theorem nodup_edit (hn : (r.tables.map (·.file)).Nodup) (e : Edit) :
    ((r.edit e).tables.map (·.file)).Nodup := by
  cases e with
  | addFile file =>
    rw [edit, addFile]
    split
    · exact hn
    · next ht =>
      have hnew : file ∉ r.tables.map (·.file) := by
        intro hmem
        obtain ⟨t, ht', rfl⟩ := List.mem_map.mp hmem
        simpa using List.find?_eq_none.mp ht t ht'
      rw [List.map_append, List.map_singleton, List.nodup_append]
      refine ⟨hn, by simp, fun a ha b hb hab => hnew ?_⟩
      have hb : b = file := List.mem_singleton.mp hb
      rwa [← hb, ← hab]
  | addOuter file imported =>
    rwa [edit, addOuter, files_onTable fun t => t.file_addOuter imported]
  | addSymbol file s => rwa [edit, addSymbol, files_onTable (file_add s)]
  | addField file id field => rwa [edit, files_addField]
  | openScope file => rwa [edit, openScope, files_onTable (g := (·.openScope)) fun _ => rfl]
  | closeScope file => rwa [edit, closeScope, files_onTable (g := (·.closeScope)) fun _ => rfl]

theorem nodup_after (edits : List Edit) : ((after edits).tables.map (·.file)).Nodup := by
  have hfrom : ∀ (edits : List Edit) (r : Registry), (r.tables.map (·.file)).Nodup →
      ((edits.foldl edit r).tables.map (·.file)).Nodup := by
    intro edits
    induction edits with
    | nil => exact fun _ hn => hn
    | cons e edits ih => exact fun r hn => ih (r.edit e) (nodup_edit hn e)
  exact hfrom edits .empty List.nodup_nil

/-! ### One meaning -/

/-- Everything that looks up a name in a file ends at the first symbol in sight that has it. -/
structure Agrees (r : Registry) (file id : String) : Prop where
  /-- The look-up that reads. -/
  lookup : r.lookup? file id = (r.meaning? file id).map (·.symbol)
  /-- The look-up through the owner's table. -/
  owned : r.owned? file id = (r.meaning? file id).map (·.symbol)
  /-- Where a name means nothing, nothing is changed. -/
  nothing : r.meaning? file id = none → ∀ f, r.updateSymbol file id f = r
  /-- Where it means a symbol, what is changed is the symbol at its place. -/
  changed : ∀ o f, r.meaning? file id = some o → r.at? o.place = some o.symbol ∧
    (r.updateSymbol file id f).at? o.place = some (f o.symbol) ∧
    r.DiffersAt o.place (r.updateSymbol file id f)
  /-- A field is added at the end of a type. -/
  field : ∀ o fields field, r.meaning? file id = some o → o.symbol.kind = .udt fields →
    (r.addField file id field).at? o.place =
      some { o.symbol with kind := .udt (fields ++ [field]) } ∧
    r.DiffersAt o.place (r.addField file id field)
  /-- A field is added to nothing else. -/
  noField : ∀ field, (∀ o, r.meaning? file id = some o → o.symbol.isUdt = false) →
    r.addField file id field = r

theorem agrees (hn : (r.tables.map (·.file)).Nodup) : r.Agrees file id where
  lookup := lookup?_eq_meaning?
  owned := owned?_eq_meaning?
  nothing h _ := updateSymbol_of_none h
  changed _ _ h := updateSymbol_of_meaning? h
  field o fields field h hkind := by
    obtain ⟨-, hat, hdiffers⟩ := updateSymbol_of_meaning? (f := (·.addField field)) h
    refine ⟨?_, hdiffers⟩
    rw [addField, hat, Symbol.addField, hkind]
  noField field h := by
    cases hm : r.meaning? file id with
    | none => exact updateSymbol_of_none hm
    | some o =>
      obtain ⟨hstands, hat, hdiffers⟩ := updateSymbol_of_meaning? (f := (·.addField field)) hm
      have hsame : o.symbol.addField field = o.symbol := by
        have hudt := h o hm
        unfold Symbol.isUdt at hudt
        unfold Symbol.addField
        split <;> simp_all
      refine eq_of_at? hn hdiffers.shapes hdiffers.types fun p => ?_
      by_cases hp : p = o.place
      · rw [hp, hstands, ← hsame]
        exact hat
      · exact hdiffers.elsewhere p hp

end Registry

/-- Whatever was done to the names of any files, no file has two tables, and all look-ups of a name
in a file agree. -/
theorem names_mean_one_symbol (edits : List Registry.Edit) (file id : String) :
    ((Registry.after edits).tables.map (·.file)).Nodup ∧
      (Registry.after edits).Agrees file id :=
  ⟨Registry.nodup_after edits, Registry.agrees (Registry.nodup_after edits)⟩

-- The field goes to the exported type of the first import that has one, past an unknown file and a
-- type of the same name that is not exported.
example :
    let udt (exported : Bool) (fields : List TypedName) : Symbol :=
      ⟨"T", .udt fields, exported, .start⟩
    let r := Registry.after
      [.addFile "a", .addSymbol "a" (udt false []), .addSymbol "a" (udt true []), .addFile "b",
        .addOuter "b" "c", .addOuter "b" "b", .addOuter "b" "a", .addOuter "b" "c",
        .addField "b" "T" ⟨"x", 0⟩]
    (r.meaning? "b" "T").map (·.place) = some ⟨"a", none, 1⟩ ∧
      (r.table? "a").map (·.symbols) = some [udt false [], udt true [⟨"x", 0⟩]] := by
  decide

end StoragePlan
