import StoragePlan.Proofs.Progress

/-!
Two invariants of every step of a compilation, on the way in and on the way out: no scope is left
open, and no active file is verified.
-/

namespace StoragePlan

namespace Project

variable {lib : Library} {p p' : Project} {file : String}

/-! ### No open scopes -/

/-- No scope is open, neither in storage nor in the table of any file, and storage holds nothing that
belongs to a scope. -/
structure Quiet (p : Project) : Prop where
  scopes : p.memory.scopes = []
  stack : p.memory.stack = []
  udts : p.memory.udts = []
  tables : ∀ t ∈ p.names.tables, t.scopes = []

theorem quiet_empty : Quiet empty := ⟨rfl, rfl, rfl, by simp [empty, Registry.empty]⟩

/-- Only storage and names matter. -/
theorem Quiet.of_eq (h : Quiet p) (hm : p'.memory = p.memory) (hn : p'.names = p.names) :
    Quiet p' := by
  obtain ⟨memory, names, active, verified⟩ := p'
  cases hm
  cases hn
  exact ⟨h.scopes, h.stack, h.udts, h.tables⟩

theorem Quiet.entered (h : Quiet p) : Quiet (p.entered file) := by
  refine ⟨h.scopes, h.stack, h.udts, ?_⟩
  unfold Project.entered Registry.addFile
  dsimp only
  split
  · exact h.tables
  · intro t ht
    rcases List.mem_append.mp ht with ht | ht
    · exact h.tables t ht
    · rw [List.mem_singleton.mp ht]
      rfl

theorem Quiet.linked (h : Quiet p) (imported : String) : Quiet (p.linked file imported) := by
  refine ⟨h.scopes, h.stack, h.udts, forall_mem_updateFirst (fun t ht => ?_) h.tables⟩
  rwa [SymbolTable.scopes_addOuter]

theorem Quiet.settled (h : Quiet p) (source : SourceFile) (udts : List Udt) :
    Quiet (p.settled (p.checked file source udts)) := by
  obtain ⟨es, us, ss, hl, hm⟩ := settled_left p file source udts
  constructor
  case scopes => simp [hm, Tracker.grow, h.scopes, Tracker.onScope]
  case stack => rw [hm, Tracker.stack_grow_false, h.stack]
  case udts => rw [hm, Tracker.udts_grow, h.udts, List.append_nil]
  case tables =>
    have he : Quiet (p.entered file) := h.entered
    have ht : ∀ t ∈ (p.names.addFile file).tables, t.scopes = [] := he.tables
    simp only [Project.settled, hl.tables]
    refine forall_mem_updateFirst (fun t hs => ?_) ht
    simp only [SymbolTable.grow, hs]

theorem Quiet.step (h : Quiet p) (hs : Step lib p p') : Quiet p' := by
  rcases hs with hs | hs
  · cases hs with
    | enter hv ha => exact h.entered
    | link ha hl hi hv => exact h.linked _
    | finish hr hv => exact (h.settled _ _).of_eq rfl rfl
  · cases hs with
    | fail hr hf => exact (h.settled _ _).of_eq rfl rfl
    | leave => exact h.of_eq rfl rfl

theorem Quiet.steps (h : Quiet p) (hs : Steps lib p p') : Quiet p' :=
  hs.keep (fun _ _ hq hs => hq.step hs) h

/-! ### Files on the way -/

/-- No file is verified while it is active, and none is active twice. -/
structure Pending (p : Project) : Prop where
  nodup : p.active.Nodup
  unverified : ∀ f ∈ p.active, p.verified? f = none

theorem Pending.of_eq (h : Pending p) (ha : p'.active = p.active)
    (hv : p'.verified = p.verified) : Pending p' where
  nodup := ha ▸ h.nodup
  unverified f hf := by
    rw [verified?, hv]
    exact h.unverified f (ha ▸ hf)

theorem Pending.left (h : Pending p) : Pending p.left where
  nodup := h.nodup.sublist (List.dropLast_sublist _)
  unverified f hf := h.unverified f (List.dropLast_subset _ hf)

theorem Pending.advance (h : Pending p) (hs : Advance lib p p') : Pending p' := by
  cases hs with
  | enter hv ha =>
    refine ⟨?_, fun f hf => ?_⟩
    · refine List.nodup_append.mpr ⟨h.nodup, by simp, fun a hm b hb he => ha ?_⟩
      rwa [← List.mem_singleton.mp hb, ← he]
    · rcases List.mem_append.mp hf with hf | hf
      · exact h.unverified f hf
      · rw [List.mem_singleton.mp hf]
        exact hv
  | link ha hl hi hv => exact ⟨h.nodup, h.unverified⟩
  | @finish file _ _ v hr hv =>
    refine ⟨h.left.nodup, fun f hf => ?_⟩
    have hne : f ≠ v.file := by
      obtain ⟨before, hactive⟩ := List.getLast?_eq_some_iff.mp hr.active
      have hn := h.nodup
      rw [hactive, List.nodup_append] at hn
      rw [file_of_checked hv]
      refine hn.2.2 f ?_ file List.mem_cons_self
      simpa [Project.left, settled, accepted, hactive] using hf
    rw [verified?_accepted, if_neg hne, Option.or_none]
    exact h.left.unverified f hf

theorem Pending.step (h : Pending p) (hs : Step lib p p') : Pending p' := by
  rcases hs with hs | hs
  · exact h.advance hs
  · cases hs with
    | fail hr hf => exact ⟨h.left.nodup, h.left.unverified⟩
    | leave => exact h.left

theorem Pending.steps (h : Pending p) (hs : Steps lib p p') : Pending p' :=
  hs.keep (fun _ _ hp hs => hp.step hs) h

end Project

end StoragePlan
