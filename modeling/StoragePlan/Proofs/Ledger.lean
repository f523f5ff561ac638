import StoragePlan.Proofs.Files

/-!
One list of declarations behind names and storage. A `Ledger` records the declarations that are
alive: those at the top level of all files in the order in which they were made, and those of the
open scopes. The symbol tables show one side of it and storage the other. In a `Coherent` session the
two sides also meet again: what a name means in the tables is what it finds in storage.
-/

namespace StoragePlan

/-- The declarations that are alive: globals oldest first, each with its file; scopes innermost
first and each newest first. -/
structure Ledger where
  globals : List (String × Binding)
  scopes : List (List Binding)

namespace Ledger

/-- The declarations at the top level of a file. -/
def ofFile (l : Ledger) (file : String) : List Binding :=
  (l.globals.filter (·.1 == file)).map (·.2)

/-- The declarations of the open scopes, innermost and newest first. -/
def locals (l : Ledger) : List Binding := l.scopes.flatten

/-- The ledger with more declarations, newest first, in the innermost scope or else at the top level
of a file. -/
def declare (file : String) (bs : List Binding) (l : Ledger) : Ledger :=
  match l.scopes with
  | [] => ⟨l.globals ++ bs.reverse.map (file, ·), []⟩
  | scope :: outer => ⟨l.globals, (bs ++ scope) :: outer⟩

def openScope (l : Ledger) : Ledger := ⟨l.globals, [] :: l.scopes⟩

/-- The session shows exactly the declarations of the ledger: its tables their symbols, its storage
their elements. -/
structure Describes (l : Ledger) (s : Session) : Prop where
  symbols : ∀ file t, s.names.table? file = some t → t.symbols = (l.ofFile file).map (·.symbol)
  scopes : ∀ t, s.names.table? s.file = some t → t.scopes = l.scopes.map (·.map (·.symbol))
  dataSegment : s.memory.dataSegment = l.globals.filterMap (·.2.element?)
  stack : s.memory.stack = l.locals.filterMap (·.element?)

/-- A declaration is alive in the ledger. -/
def Has (l : Ledger) (b : Binding) : Prop := b ∈ l.locals ∨ ∃ file, (file, b) ∈ l.globals

theorem mem_ofFile {l : Ledger} {file : String} {b : Binding} :
    b ∈ l.ofFile file ↔ (file, b) ∈ l.globals := by
  simp [ofFile]

theorem ofFile_append_of_ne {g : List (String × Binding)} {bs : List Binding} {file f : String}
    (hne : f ≠ file) : ofFile ⟨g ++ bs.map (file, ·), []⟩ f = ofFile ⟨g, []⟩ f := by
  simp [ofFile, Ne.symm hne]

theorem ofFile_append_self {g : List (String × Binding)} {bs : List Binding} {file : String} :
    ofFile ⟨g ++ bs.map (file, ·), []⟩ file = ofFile ⟨g, []⟩ file ++ bs := by
  have hown : (bs.map (file, ·)).filter (·.1 == file) = bs.map (file, ·) :=
    List.filter_eq_self.mpr (by simp)
  simp [ofFile, hown, Function.comp_def]

theorem mem_locals_declare {l : Ledger} {file : String} {bs : List Binding} {b : Binding}
    (h : b ∈ (l.declare file bs).locals) : b ∈ bs ∨ b ∈ l.locals := by
  obtain ⟨globals, scopes⟩ := l
  cases scopes with
  | nil => exact .inr h
  | cons scope outer => simpa [declare, locals] using h

theorem mem_globals_declare {l : Ledger} {file f : String} {bs : List Binding} {b : Binding}
    (h : (f, b) ∈ (l.declare file bs).globals) : f = file ∧ b ∈ bs ∨ (f, b) ∈ l.globals := by
  obtain ⟨globals, scopes⟩ := l
  cases scopes with
  | nil =>
    rcases List.mem_append.mp h with h | h
    · exact .inr h
    · obtain ⟨c, hc, he⟩ := List.mem_map.mp h
      cases he
      exact .inl ⟨rfl, List.mem_reverse.mp hc⟩
  | cons scope outer => exact .inr h

end Ledger

/-! ### Searching bindings -/

section Search

variable {types : TypeTable} {bs : List Binding} {id : String}

/-- The newest declaration of a name is also the newest element of that name. -/
theorem find?_element_of_find? (hm : ∀ b ∈ bs, b.Matches types) {b : Binding} {e : Element}
    (hb : bs.find? (·.symbol.id == id) = some b) (he : b.element? = some e) :
    (bs.filterMap (·.element?)).find? (·.hasId id) = some e := by
  induction bs with
  | nil => cases hb
  | cons c bs ih =>
    rw [List.forall_mem_cons] at hm
    by_cases hc : c.symbol.id = id
    · obtain rfl : c = b := by simpa [hc] using hb
      have hid := hm.1.id_element he
      simp [he, Element.hasId, hid, hc]
    · have hb' : bs.find? (·.symbol.id == id) = some b := by simpa [hc] using hb
      cases hce : c.element? with
      | none => simpa [hce] using ih hm.2 hb'
      | some e' =>
        have hid := hm.1.id_element hce
        simpa [hce, Element.hasId, hid, hc] using ih hm.2 hb'

theorem find?_element_eq_none (hm : ∀ b ∈ bs, b.Matches types)
    (hb : bs.find? (·.symbol.id == id) = none) :
    (bs.filterMap (·.element?)).find? (·.hasId id) = none := by
  rw [List.find?_eq_none]
  intro e he
  obtain ⟨b, hbm, hbe⟩ := List.mem_filterMap.mp he
  have hid := (hm b hbm).id_element hbe
  have hne := List.find?_eq_none.mp hb b hbm
  simpa [Element.hasId, hid] using hne

end Search

/-! ### Coherence -/

/-- The files that the file of a session imports. -/
def Session.outer (s : Session) : List String := ((s.names.table? s.file).map (·.outer)).getD []

/-- Names and storage of a session go together: they show one ledger, the two sides of every
declaration match, and the types of all names in sight are active, no two under one name. -/
structure Coherent (l : Ledger) (s : Session) : Prop extends l.Describes s where
  table : (s.names.table? s.file).isSome
  ordered : s.names.types.Ordered
  sound : ∀ b, l.Has b → b.Matches s.names.types
  distinct : s.memory.Distinct
  nodup : (s.memory.udts.map (·.id)).Nodup
  localTypes : ∀ b ∈ l.locals, ∀ u, b.udt? = some u → u ∈ s.memory.udts
  globalTypes : ∀ file b, (file, b) ∈ l.globals → file = s.file ∨ file ∈ s.outer →
    ∀ u, b.udt? = some u → u ∈ s.memory.udts

/-- Declarations change no imports. -/
theorem Check.Grown.outer {bs : List Binding} {s s' : Session} (h : Check.Grown bs s s') :
    s'.outer = s.outer := by
  unfold Session.outer
  rw [h.table?]
  cases s.names.table? s.file <;> simp

namespace Coherent

variable {l : Ledger} {s s' : Session} {id : String} {x : Symbol}

/-- A name means the newest local declaration of it, or else one at the top level of the file or of
a file that it imports. -/
theorem lookup? (h : Coherent l s) (hx : s.names.lookup? s.file id = some x) :
    (∃ b, l.locals.find? (·.symbol.id == id) = some b ∧ b.symbol = x) ∨
    (l.locals.find? (·.symbol.id == id) = none ∧ ∃ file b, (file, b) ∈ l.globals ∧
      b.symbol = x ∧ (file = s.file ∨ file ∈ s.outer)) := by
  obtain ⟨t, ht⟩ := Option.isSome_iff_exists.mp h.table
  have hlocals : t.scopes.flatten = l.locals.map (·.symbol) := by
    rw [h.scopes t ht, Ledger.locals, List.map_flatten]
  have hlocal : t.local? id = ((l.locals.find? (·.symbol.id == id)).map (·.symbol)).or
      (((l.ofFile s.file).find? (·.symbol.id == id)).map (·.symbol)) := by
    rw [SymbolTable.local?, SymbolTable.visible, hlocals, h.symbols s.file t ht,
      List.find?_append, List.find?_map, List.find?_map]
    rfl
  cases hl : l.locals.find? (·.symbol.id == id) with
  | some b =>
    refine .inl ⟨b, rfl, ?_⟩
    simpa [Registry.lookup?, ht, hlocal, hl] using hx
  | none =>
    refine .inr ⟨rfl, ?_⟩
    rw [hl, Option.map_none, Option.none_or] at hlocal
    simp only [Registry.lookup?, ht, hlocal] at hx
    cases hg : (l.ofFile s.file).find? (·.symbol.id == id) with
    | some b =>
      rw [hg, Option.map_some] at hx
      have hm := Ledger.mem_ofFile.mp (List.mem_of_find?_eq_some hg)
      exact ⟨s.file, b, hm, Option.some.inj hx, .inl rfl⟩
    | none =>
      rw [hg, Option.map_none] at hx
      obtain ⟨file, hfile, hex⟩ := List.exists_of_findSome?_eq_some hx
      obtain ⟨t', ht', hx'⟩ := Option.bind_eq_some_iff.mp hex
      have hm := List.mem_of_find?_eq_some hx'
      rw [h.symbols file t' ht'] at hm
      obtain ⟨b, hb, hbx⟩ := List.mem_map.mp hm
      refine ⟨file, b, Ledger.mem_ofFile.mp hb, hbx, .inr ?_⟩
      simpa [Session.outer, ht] using hfile

/-- Behind every name in sight is a declaration that is alive, and the name finds its element and
its type in storage. -/
theorem binding (h : Coherent l s) (hx : s.names.lookup? s.file id = some x) :
    ∃ b, l.Has b ∧ b.symbol = x ∧
      (∀ e, b.element? = some e → (s.memory.find? id).map (·.element) = some e) ∧
      (∀ u, b.udt? = some u → s.memory.findUdt? id = some u) := by
  have hid := Registry.lookup?_id hx
  have hlocals : ∀ b ∈ l.locals, b.Matches s.names.types := fun b hb => h.sound b (.inl hb)
  have hudt : ∀ b u, l.Has b → b.symbol = x → b.udt? = some u → u ∈ s.memory.udts →
      s.memory.findUdt? id = some u := by
    intro b u hb hbx hu hmem
    have huid : u.id = id := by rw [(h.sound b hb).id_udt hu, hbx, hid]
    have hf := find?_eq_of_nodup h.nodup hmem
    rwa [huid] at hf
  rcases h.lookup? hx with ⟨b, hb, hbx⟩ | ⟨hnone, file, b, hb, hbx, hfile⟩
  · have hmem := List.mem_of_find?_eq_some hb
    refine ⟨b, .inl hmem, hbx, fun e he => ?_, fun u hu => ?_⟩
    · rw [Tracker.find?_element, h.stack, find?_element_of_find? hlocals hb he, Option.some_or]
    · exact hudt b u (.inl hmem) hbx hu (h.localTypes b hmem u hu)
  · refine ⟨b, .inr ⟨file, hb⟩, hbx, fun e he => ?_, fun u hu => ?_⟩
    · have hemem : e ∈ s.memory.dataSegment := by
        rw [h.dataSegment]
        exact List.mem_filterMap.mpr ⟨(file, b), hb, he⟩
      have heid : e.id = some id := by rw [(h.sound b (.inr ⟨file, hb⟩)).id_element he, hbx, hid]
      rw [Tracker.find?_element, h.stack, find?_element_eq_none hlocals hnone, Option.none_or]
      exact h.distinct.find?_eq hemem heid
    · exact hudt b u (.inr ⟨file, hb⟩) hbx hu (h.globalTypes file b hb hfile u hu)

/-! ### What steps keep -/

/-- Neither frames nor the record of the current body matter. -/
theorem congr (h : Coherent l s) (hf : s'.file = s.file) (hm : s'.memory = s.memory)
    (hn : s'.names = s.names) : Coherent l s' := by
  obtain ⟨file, memory, names, body, frames, types, udts⟩ := s'
  cases hf
  cases hm
  cases hn
  exact ⟨⟨h.symbols, h.scopes, h.dataSegment, h.stack⟩, h.table, h.ordered, h.sound, h.distinct,
    h.nodup, h.localTypes, h.globalTypes⟩

/-- A new scope holds no declarations yet. -/
theorem opened (h : Coherent l s) : Coherent l.openScope (Check.opened s) := by
  have hf : ∀ t : SymbolTable, t.openScope.file = t.file := fun _ => rfl
  have htable : ∀ file, (s.names.openScope s.file).table? file =
      if file = s.file then (s.names.table? file).map (·.openScope) else s.names.table? file := by
    intro file
    unfold Registry.openScope
    split
    · next hfile => rw [hfile, Registry.table?_onTable hf]
    · next hfile => rw [Registry.table?_onTable_of_ne hf hfile]
  have houter : (Check.opened s).outer = s.outer := by
    unfold Session.outer Check.opened
    rw [htable, if_pos rfl]
    cases s.names.table? s.file <;> rfl
  refine ⟨⟨fun file t ht => ?_, fun t ht => ?_, h.dataSegment, h.stack⟩, ?_, h.ordered, h.sound,
    h.distinct, h.nodup, h.localTypes, fun file b hb hfile => ?_⟩
  · simp only [Check.opened, htable] at ht
    split at ht
    · obtain ⟨t', ht', rfl⟩ := Option.map_eq_some_iff.mp ht
      exact h.symbols file t' ht'
    · exact h.symbols file t ht
  · simp only [Check.opened, htable, if_pos] at ht
    obtain ⟨t', ht', rfl⟩ := Option.map_eq_some_iff.mp ht
    simp only [SymbolTable.openScope, Ledger.openScope, h.scopes t' ht', List.map_cons,
      List.map_nil]
  · simpa [Check.opened, htable] using h.table
  · exact h.globalTypes file b hb (houter ▸ hfile)

section Grown

variable {bs : List Binding}

theorem describes_grown (h : Coherent l s) (hg : Check.Grown bs s s')
    (hin : s.body.isSome = !l.scopes.isEmpty) : (l.declare s.file bs).Describes s' := by
  obtain ⟨t, ht⟩ := Option.isSome_iff_exists.mp h.table
  have ht' : s'.names.table? s.file = some (t.gain bs) := by
    rw [← hg.file, hg.table?, ht, Option.map_some]
  have hts := h.scopes t ht
  have hsym := h.symbols s.file t ht
  have hm := hg.memory
  have hstack := h.stack
  obtain ⟨globals, scopes⟩ := l
  -- at the top level the ledger grows at its end, in a scope at its front
  cases scopes with
  | nil =>
    rw [List.map_nil] at hts
    rw [List.isEmpty_nil, Bool.not_true] at hin
    constructor
    case symbols =>
      intro file t' h'
      by_cases hfile : file = s.file
      · subst hfile
        obtain rfl := Option.some.inj (ht'.symm.trans h')
        have hown : (bs.map (s.file, ·)).filter (·.1 == s.file) = bs.map (s.file, ·) :=
          List.filter_eq_self.mpr (by simp)
        simp [SymbolTable.gain, SymbolTable.grow, hts, hsym, Ledger.declare, Ledger.ofFile, hown]
      · rw [hg.table?_of_ne hfile] at h'
        rw [h.symbols file t' h']
        simp [Ledger.declare, Ledger.ofFile, Ne.symm hfile]
    case scopes =>
      intro t' h'
      rw [hg.file] at h'
      obtain rfl := Option.some.inj (ht'.symm.trans h')
      simp [SymbolTable.gain, SymbolTable.grow, hts, Ledger.declare]
    case dataSegment =>
      simp only [hm, hin, Tracker.gain, Tracker.grow, h.dataSegment, Ledger.declare,
        List.filterMap_append, List.filterMap_map, List.filterMap_reverse, Bool.false_eq_true, if_false]
      rfl
    case stack => simp [hm, hin, Tracker.gain, Tracker.grow, hstack, Ledger.declare, Ledger.locals]
  | cons scope outer =>
    rw [List.map_cons] at hts
    rw [List.isEmpty_cons, Bool.not_false] at hin
    constructor
    case symbols =>
      intro file t' h'
      by_cases hfile : file = s.file
      · subst hfile
        obtain rfl := Option.some.inj (ht'.symm.trans h')
        simp [SymbolTable.gain, SymbolTable.grow, hts, hsym, Ledger.declare, Ledger.ofFile]
      · rw [hg.table?_of_ne hfile] at h'
        exact h.symbols file t' h'
    case scopes =>
      intro t' h'
      rw [hg.file] at h'
      obtain rfl := Option.some.inj (ht'.symm.trans h')
      simp [SymbolTable.gain, SymbolTable.grow, hts, Ledger.declare]
    case dataSegment => simp [hm, hin, Tracker.gain, Tracker.grow, h.dataSegment, Ledger.declare]
    case stack => simp [hm, hin, Tracker.gain, Tracker.grow, hstack, Ledger.declare, Ledger.locals]

/-- Declarations go to the same place of the ledger as to names and storage. -/
theorem grown (h : Coherent l s) (hg : Check.Grown bs s s')
    (hin : s.body.isSome = !l.scopes.isEmpty) : Coherent (l.declare s.file bs) s' := by
  have hudts : s'.memory.udts = bs.filterMap (·.udt?) ++ s.memory.udts := by
    rw [hg.memory]
    rfl
  have hkept : ∀ u, u ∈ s.memory.udts → u ∈ s'.memory.udts := fun u hu => by simp [hudts, hu]
  have hnew : ∀ b ∈ bs, ∀ u, b.udt? = some u → u ∈ s'.memory.udts := fun b hb u hu => by
    rw [hudts]
    exact List.mem_append_left _ (List.mem_filterMap.mpr ⟨b, hb, hu⟩)
  have houter : s'.outer = s.outer := hg.outer
  constructor
  case toDescribes => exact h.describes_grown hg hin
  case table =>
    rw [hg.table?]
    simpa using h.table
  case ordered => exact hg.types.ordered h.ordered
  case sound =>
    rintro b (hb | ⟨file, hb⟩)
    · rcases Ledger.mem_locals_declare hb with hb | hb
      · exact hg.sound h.ordered b hb
      · exact (h.sound b (.inl hb)).mono h.ordered hg.types
    · rcases Ledger.mem_globals_declare hb with ⟨_, hb⟩ | hb
      · exact hg.sound h.ordered b hb
      · exact (h.sound b (.inr ⟨file, hb⟩)).mono h.ordered hg.types
  case distinct =>
    cases hs : s.body with
    | none => exact hg.distinct hs h.distinct
    | some body =>
      have hd := h.distinct
      unfold Tracker.Distinct at hd ⊢
      rw [hg.memory, hs]
      exact hd
  case nodup => exact hg.shapes h.table h.nodup
  case localTypes =>
    intro b hb u hu
    rcases Ledger.mem_locals_declare hb with hb | hb
    · exact hnew b hb u hu
    · exact hkept u (h.localTypes b hb u hu)
  case globalTypes =>
    intro file b hb hfile u hu
    rcases Ledger.mem_globals_declare hb with ⟨_, hb⟩ | hb
    · exact hnew b hb u hu
    · rw [hg.file, houter] at hfile
      exact hkept u (h.globalTypes file b hb hfile u hu)

end Grown

end Coherent

end StoragePlan
