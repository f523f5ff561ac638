import StoragePlan.Proofs.Restoration

/-!
Which file a global comes from. Every global has the name of a function, variable or constant at the
top level of exactly one file, and every such symbol has its global. This holds for files that have
failed as well, so what storage keeps of them can be read off their symbols.
-/

namespace StoragePlan

namespace Project

variable {lib : Library} {p p' : Project} {file other : String} {source : SourceFile}
  {udts : List Udt}

/-- The symbols at the top level of a file. -/
def declared (p : Project) (file : String) : List Symbol :=
  ((p.names.table? file).map (·.symbols)).getD []

/-! ### What is declared -/

theorem declared_entered (other : String) : (p.entered file).declared other = p.declared other := by
  unfold declared entered
  rw [Registry.table?_addFile]
  cases p.names.table? other with
  | some t => rfl
  | none =>
    rw [Option.none_or]
    split <;> rfl

theorem declared_linked (imported other : String) :
    (p.linked file imported).declared other = p.declared other := by
  unfold declared linked Registry.addOuter
  by_cases ho : other = file
  · subst ho
    rw [Registry.table?_onTable (SymbolTable.file_addOuter imported)]
    cases p.names.table? other <;> simp
  · rw [Registry.table?_onTable_of_ne (SymbolTable.file_addOuter imported) ho]

/-- The check of a file adds to what the file has declared. -/
theorem declared_settled (hq : Quiet p) {es : List Element} {us : List Udt} {ss : List Symbol}
    (hl : Left es us ss file (p.storageWith udts) p.names (p.checked file source udts)) :
    (p.settled (p.checked file source udts)).declared file = p.declared file ++ ss.reverse := by
  obtain ⟨t, ht⟩ : ∃ t, (p.entered file).names.table? file = some t :=
    Option.isSome_iff_exists.mp (by simp [entered, Registry.table?_addFile])
  have hs : t.scopes = [] := hq.entered.tables t (Registry.table?_mem ht)
  have he : (p.entered file).declared file = p.declared file := declared_entered file
  rw [← he]
  unfold declared settled
  rw [Registry.table?_congr hl.tables, Registry.table?_onTable (fun t => t.file_grow ss)]
  simp only [entered] at ht ⊢
  simp [ht, SymbolTable.grow, hs]

theorem declared_settled_of_ne (hne : other ≠ file) :
    (p.settled (p.checked file source udts)).declared other = p.declared other := by
  obtain ⟨es, us, ss, hl⟩ := verify_left file (p.storageWith udts) p.names source
  have he : (p.entered file).declared other = p.declared other := declared_entered other
  rw [← he]
  unfold declared settled entered
  rw [checked, Registry.table?_congr hl.tables,
    Registry.table?_onTable_of_ne (fun t => t.file_grow ss) hne]

/-! ### Globals and their files -/

/-- A function, variable or constant of the file has the name of the element. -/
def Declares (p : Project) (file : String) (e : Element) : Prop :=
  ∃ x ∈ p.declared file, x.isUdt = false ∧ e.id = some x.id

/-- Every global belongs to one file, and every function, variable or constant has its global. -/
structure Recorded (p : Project) : Prop where
  quiet : Quiet p
  ordered : p.names.types.Ordered
  distinct : p.memory.Distinct
  owned : ∀ e ∈ p.memory.dataSegment, ∃ f, p.Declares f e
  stored : ∀ f, ∀ x ∈ p.declared f, x.isUdt = false → ∃ e ∈ p.memory.dataSegment, e.id = some x.id
  apart : ∀ f f' e, p.Declares f e → p.Declares f' e → f = f'

theorem recorded_empty : Recorded empty where
  quiet := quiet_empty
  ordered h base dims he := by simp [empty, Registry.empty, TypeTable.empty, TypeTable.get?] at he
  distinct := by simp [Tracker.Distinct, empty, Tracker.empty]
  owned e he := by cases he
  stored f x hx := by cases hx
  apart f f' e := by
    rintro ⟨x, hx, _⟩
    cases hx

end Project

namespace Check

variable {types : TypeTable} {ss : List Symbol} {es : List Element}

theorem Stored.element (h : Stored types ss es) {x : Symbol} (hx : x ∈ ss) (hu : x.isUdt = false) :
    ∃ e ∈ es, e.id = some x.id := by
  obtain ⟨bs, hsymbols, rfl, hm⟩ := h
  have hmem : x ∈ bs.map (·.symbol) := by
    rw [hsymbols]
    exact List.mem_filter.mpr ⟨hx, by simp [hu]⟩
  obtain ⟨b, hb, rfl⟩ := List.mem_map.mp hmem
  cases he : b.holding with
  | element e =>
    have he' : b.element? = some e := by simp [Binding.element?, he]
    exact ⟨e, List.mem_filterMap.mpr ⟨b, hb, he'⟩, (hm b hb).id_element he'⟩
  | udt u =>
    have hudt := (hm b hb).isUdt
    simp [Binding.udt?, he, hu] at hudt

theorem Stored.symbol (h : Stored types ss es) {e : Element} (he : e ∈ es) :
    ∃ x ∈ ss, x.isUdt = false ∧ e.id = some x.id := by
  obtain ⟨bs, hsymbols, rfl, hm⟩ := h
  obtain ⟨b, hb, he⟩ := List.mem_filterMap.mp he
  have hmem : b.symbol ∈ ss.filter (!·.isUdt) := hsymbols ▸ List.mem_map_of_mem hb
  obtain ⟨hx, hu⟩ := List.mem_filter.mp hmem
  exact ⟨b.symbol, hx, by simpa using hu, (hm b hb).id_element he⟩

end Check

namespace Project

variable {lib : Library} {p p' : Project} {file : String} {source : SourceFile} {udts : List Udt}

section Settled

variable {es : List Element} {us : List Udt} {ss : List Symbol}
  (hl : Left es us ss file (p.storageWith udts) p.names (p.checked file source udts))

include hl

theorem dataSegment_settled : (p.settled (p.checked file source udts)).memory.dataSegment =
    p.memory.dataSegment ++ es.reverse := by
  rw [memory_settled hl]
  rfl

theorem distinct_settled (hd : p.memory.Distinct) :
    (p.settled (p.checked file source udts)).memory.Distinct := by
  have hm := dataSegment_storageWith udts p
  have hc : (p.checked file source udts).memory.Distinct := hl.distinct (by rwa [Tracker.Distinct, hm])
  rw [hl.memory] at hc
  rw [Tracker.Distinct, dataSegment_settled hl, ← hm]
  exact hc

theorem declares_settled (hq : Quiet p) (f : String) (e : Element) :
    (p.settled (p.checked file source udts)).Declares f e ↔
      p.Declares f e ∨ f = file ∧ ∃ x ∈ ss, x.isUdt = false ∧ e.id = some x.id := by
  unfold Declares
  by_cases hf : f = file
  · subst hf
    simp only [declared_settled hq hl, List.mem_append, List.mem_reverse, or_and_right, exists_or,
      true_and]
  · simp only [declared_settled_of_ne hf, hf, false_and, or_false]

end Settled

namespace Recorded

/-- Only storage, names and symbols matter. -/
theorem of_eq (h : Recorded p) (hq : Quiet p') (hm : p'.memory = p.memory)
    (ht : p'.names.types = p.names.types) (hd : ∀ f, p'.declared f = p.declared f) :
    Recorded p' where
  quiet := hq
  ordered := ht ▸ h.ordered
  distinct := hm ▸ h.distinct
  owned e he := by
    obtain ⟨f, x, hx, hu, hid⟩ := h.owned e (hm ▸ he)
    exact ⟨f, x, hd f ▸ hx, hu, hid⟩
  stored f x hx hu := by
    rw [hm]
    exact h.stored f x (hd f ▸ hx) hu
  apart f f' e := by
    simp only [Declares, hd]
    exact h.apart f f' e

/-- The check of a file declares no function, variable or constant that is declared elsewhere. -/
theorem new (h : Recorded p) {es : List Element} {us : List Udt} {ss : List Symbol}
    (hl : Left es us ss file (p.storageWith udts) p.names (p.checked file source udts))
    {x : Symbol} (hx : x ∈ ss) (hu : x.isUdt = false) {f : String} {e : Element}
    (he : e.id = some x.id) : ¬ p.Declares f e := by
  rintro ⟨y, hy, huy, hid⟩
  obtain ⟨e₁, he₁, hid₁⟩ := (hl.stored h.ordered).element hx hu
  obtain ⟨e₂, he₂, hid₂⟩ := h.stored f y hy huy
  have hd := distinct_settled hl h.distinct
  rw [Tracker.Distinct, dataSegment_settled hl, List.map_append, List.nodup_append] at hd
  refine hd.2.2 e₂.id (List.mem_map_of_mem he₂) e₁.id
    (List.mem_map_of_mem (List.mem_reverse.mpr he₁)) ?_
  rw [hid₁, hid₂, ← hid, he]

/-- What the check of a file leaves, right or not, belongs to that file. -/
theorem settled (h : Recorded p) : Recorded (p.settled (p.checked file source udts)) := by
  obtain ⟨es, us, ss, hl⟩ := verify_left file (p.storageWith udts) p.names source
  have hstored : Check.Stored (p.checked file source udts).names.types ss es := hl.stored h.ordered
  refine ⟨h.quiet.settled source udts, hl.types.ordered h.ordered, distinct_settled hl h.distinct,
    fun e he => ?_, fun f x hx hu => ?_, fun f f' e hf hf' => ?_⟩
  · simp only [declares_settled hl h.quiet]
    rw [dataSegment_settled hl] at he
    rcases List.mem_append.mp he with he | he
    · obtain ⟨f, hf⟩ := h.owned e he
      exact ⟨f, .inl hf⟩
    · exact ⟨file, .inr ⟨rfl, hstored.symbol (List.mem_reverse.mp he)⟩⟩
  · rw [dataSegment_settled hl]
    have hold : x ∈ p.declared f → ∃ e ∈ p.memory.dataSegment ++ es.reverse, e.id = some x.id := by
      intro hx
      obtain ⟨e, he, hid⟩ := h.stored f x hx hu
      exact ⟨e, List.mem_append_left _ he, hid⟩
    by_cases hf : f = file
    · subst hf
      rw [declared_settled h.quiet hl] at hx
      rcases List.mem_append.mp hx with hx | hx
      · exact hold hx
      · obtain ⟨e, he, hid⟩ := hstored.element (List.mem_reverse.mp hx) hu
        exact ⟨e, List.mem_append_right _ (List.mem_reverse.mpr he), hid⟩
    · rw [declared_settled_of_ne hf] at hx
      exact hold hx
  · rw [declares_settled hl h.quiet] at hf hf'
    rcases hf with hf | ⟨rfl, x, hx, hu, hid⟩
    · rcases hf' with hf' | ⟨rfl, x, hx, hu, hid⟩
      · exact h.apart f f' e hf hf'
      · exact absurd hf (h.new hl hx hu hid)
    · rcases hf' with hf' | ⟨rfl, _⟩
      · exact absurd hf' (h.new hl hx hu hid)
      · rfl

theorem step (h : Recorded p) (hs : Step lib p p') : Recorded p' := by
  have hq := h.quiet.step hs
  rcases hs with hs | hs
  · cases hs with
    | enter hv ha => exact h.of_eq hq rfl (Registry.types_addFile _ _) declared_entered
    | link ha hl hi hv => exact h.of_eq hq rfl rfl (declared_linked _)
    | finish hr hv => exact h.settled.of_eq hq rfl rfl fun _ => rfl
  · cases hs with
    | fail hr hf => exact h.settled.of_eq hq rfl rfl fun _ => rfl
    | leave => exact h.of_eq hq rfl rfl fun _ => rfl

theorem steps (h : Recorded p) (hs : Steps lib p p') : Recorded p' :=
  hs.keep (fun _ _ hr hs => hr.step hs) h

theorem after (h : Recorded p) (lib : Library) (file : String) : Recorded (p.after lib file) :=
  (h.of_eq (h.quiet.of_eq rfl rfl) rfl rfl fun _ => rfl : Recorded p.idle).steps
    (after_steps lib file p).1

/-- Storage holds the globals of verified files only, if and only if no file that is not verified has
a function, variable or constant. -/
theorem owned_by_verified_iff (h : Recorded p) :
    (∀ e ∈ p.memory.dataSegment, ∃ v ∈ p.verified, p.Declares v.file e) ↔
      ∀ f, p.verified? f = none → ∀ x ∈ p.declared f, x.isUdt = true := by
  constructor
  · intro howned f hf x hx
    cases hu : x.isUdt with
    | true => rfl
    | false =>
      obtain ⟨e, he, hid⟩ := h.stored f x hx hu
      obtain ⟨v, hv, hdeclares⟩ := howned e he
      have heq := h.apart _ _ e hdeclares ⟨x, hx, hu, hid⟩
      rw [verified?, List.find?_eq_none] at hf
      exact absurd (by simp [heq]) (hf v hv)
  · intro htypes e he
    obtain ⟨f, x, hx, hu, hid⟩ := h.owned e he
    cases hv : p.verified? f with
    | none => simp [htypes f hv x hx] at hu
    | some v =>
      have hfile : v.file = f := by simpa using List.find?_some hv
      exact ⟨v, List.mem_of_find?_eq_some hv, x, hfile ▸ hx, hu, hid⟩

end Recorded

/-- Every attempt to compile keeps the record of globals. -/
theorem afterAll_recorded (calls : List (Library × String)) : Recorded (afterAll calls) :=
  afterAll_keep recorded_empty (fun lib file _ h => h.after lib file) calls

end Project

end StoragePlan
