import StoragePlan.Project.Basic

/-!
The types that become active for a file. They are collected from the files that its imports lead to,
one file after another; `Gathered` is what holds all along. The bound on the search is never reached,
because a file puts its imports on the list only once.
-/

namespace StoragePlan

namespace Project

variable {p : Project} {pending visited visited' : List String} {collected collected' : List Udt}

/-- Adding types succeeds if no two of them share a name, and keeps their order. -/
theorem addTypes_eq_ok {us : List Udt} (h : addTypes collected us = .ok collected') :
    collected' = collected ++ us ∧
      ((collected.map (·.id)).Nodup → (collected'.map (·.id)).Nodup) := by
  induction us generalizing collected with
  | nil =>
    cases h
    simp
  | cons u us ih =>
    unfold addTypes at h
    split at h
    · cases h
    · next hn =>
      obtain ⟨rfl, hnodup⟩ := ih h
      refine ⟨by simp, fun hc => hnodup ?_⟩
      rw [List.map_append, List.nodup_append]
      refine ⟨hc, by simp, ?_⟩
      intro a ha b hb hab
      obtain ⟨w, hw, rfl⟩ := List.mem_map.mp ha
      apply hn
      rw [List.any_eq_true]
      refine ⟨w, hw, ?_⟩
      simpa [hab] using hb

/-- The types of the visited files are collected, no two under one name, and what these files import
is visited or still pending. -/
structure Gathered (p : Project) (pending visited : List String) (collected : List Udt) :
    Prop where
  nodup : (collected.map (·.id)).Nodup
  types : ∀ u, u ∈ collected ↔ ∃ file ∈ visited, ∃ v, p.verified? file = some v ∧ u ∈ v.udts
  closed : ∀ file ∈ visited, ∀ o ∈ p.importsOf file, (p.verified? o).isSome →
    o ∈ visited ∨ o ∈ pending

theorem gathered_nil : Gathered p pending [] [] := ⟨by simp, by simp, by simp⟩

namespace Gathered

variable {file : String}

/-- A file without types to collect is left out. -/
theorem skip (h : Gathered p (file :: pending) visited collected)
    (hf : file ∈ visited ∨ p.verified? file = none) : Gathered p pending visited collected := by
  refine ⟨h.nodup, h.types, fun f hfv o ho hv => ?_⟩
  rcases h.closed f hfv o ho hv with hm | hm
  · exact .inl hm
  · rcases List.mem_cons.mp hm with rfl | hm
    · rcases hf with hf | hf
      · exact .inl hf
      · simp [hf] at hv
    · exact .inr hm

/-- A file is visited: its types are collected and its imports become pending. -/
theorem visit (h : Gathered p (file :: pending) visited collected) {v : VerifiedFile}
    (hv : p.verified? file = some v) (ha : addTypes collected v.udts = .ok collected') :
    Gathered p ((p.importsOf file).reverse ++ pending) (visited ++ [file]) collected' := by
  obtain ⟨rfl, hn⟩ := addTypes_eq_ok ha
  refine ⟨hn h.nodup, fun u => ?_, fun f hf o ho hov => ?_⟩
  · rw [List.mem_append, h.types u]
    constructor
    · rintro (⟨f, hf, w, hw, hu⟩ | hu)
      · exact ⟨f, List.mem_append_left _ hf, w, hw, hu⟩
      · exact ⟨file, by simp, v, hv, hu⟩
    · rintro ⟨f, hf, w, hw, hu⟩
      rcases List.mem_append.mp hf with hf | hf
      · exact .inl ⟨f, hf, w, hw, hu⟩
      · rw [List.mem_singleton.mp hf, hv] at hw
        cases hw
        exact .inr hu
  · rcases List.mem_append.mp hf with hf | hf
    · rcases h.closed f hf o ho hov with hm | hm
      · exact .inl (List.mem_append_left _ hm)
      · rcases List.mem_cons.mp hm with rfl | hm
        · exact .inl (by simp)
        · exact .inr (List.mem_append_right _ hm)
    · rw [List.mem_singleton.mp hf] at ho
      exact .inr (List.mem_append_left _ (List.mem_reverse.mpr ho))

end Gathered

/-! ### The bound -/

/-- How many imports the files of some tables have that were not visited yet. -/
def unvisited (visited : List String) : List SymbolTable → Nat
  | [] => 0
  | t :: tables =>
    (if visited.contains t.file then 0 else t.outer.length) + unvisited visited tables

theorem unvisited_cons (visited : List String) (t : SymbolTable) (tables : List SymbolTable) :
    unvisited visited (t :: tables) =
      (if t.file ∈ visited then 0 else t.outer.length) + unvisited visited tables := by
  simp [unvisited]

theorem unvisited_le (visited : List String) (tables : List SymbolTable) :
    unvisited visited tables ≤ (tables.flatMap (·.outer)).length := by
  induction tables with
  | nil => simp [unvisited]
  | cons t tables ih =>
    rw [unvisited_cons, List.flatMap_cons, List.length_append]
    split <;> omega

theorem unvisited_append (file : String) (tables : List SymbolTable) :
    unvisited (visited ++ [file]) tables ≤ unvisited visited tables := by
  induction tables with
  | nil => simp [unvisited]
  | cons t tables ih =>
    simp only [unvisited_cons, List.mem_append]
    by_cases ht : t.file ∈ visited
    · simp only [ht, true_or, if_true]
      omega
    · simp only [ht, false_or, if_false]
      split <;> omega

/-- A file that is visited takes its imports out of the count. -/
theorem unvisited_visit {file : String} (hf : file ∉ visited) (p : Project) :
    unvisited (visited ++ [file]) p.names.tables + (p.importsOf file).length ≤
      unvisited visited p.names.tables := by
  unfold importsOf Registry.table?
  induction p.names.tables with
  | nil => simp [unvisited]
  | cons t tables ih =>
    rw [unvisited_cons, unvisited_cons, List.find?_cons]
    by_cases ht : t.file = file
    · -- the first table of the file is the one that counts for its imports
      have hrest : unvisited (visited ++ [file]) tables ≤ unvisited visited tables :=
        unvisited_append file tables
      simp [ht, hf]
      omega
    · have hb : (t.file == file) = false := by simpa using ht
      simp only [hb, List.mem_append, List.mem_singleton, ht, or_false]
      split <;> omega

/-- The search ends with nothing pending. -/
theorem collectTypes_gathered {n : Nat} (h : Gathered p pending visited collected)
    (hn : pending.length + unvisited visited p.names.tables ≤ n)
    (hr : collectTypes p n pending visited collected = .ok (visited', collected')) :
    Gathered p [] visited' collected' ∧ (∀ f ∈ visited, f ∈ visited') ∧
      ∀ f ∈ pending, (p.verified? f).isSome → f ∈ visited' := by
  induction n generalizing pending visited collected with
  | zero =>
    cases pending with
    | nil =>
      cases hr
      exact ⟨h, fun _ hf => hf, by simp⟩
    | cons file pending => simp at hn
  | succ n ih =>
    cases pending with
    | nil =>
      cases hr
      exact ⟨h, fun _ hf => hf, by simp⟩
    | cons file pending =>
      rw [List.length_cons] at hn
      unfold collectTypes at hr
      split at hr
      · next hc =>
        have hf : file ∈ visited := by simpa using hc
        obtain ⟨hg, hsub, hpend⟩ := ih (h.skip (.inl hf)) (by omega) hr
        exact ⟨hg, hsub, List.forall_mem_cons.mpr ⟨fun _ => hsub file hf, hpend⟩⟩
      · next hc =>
        have hf : file ∉ visited := by simpa using hc
        split at hr
        · next hv =>
          obtain ⟨hg, hsub, hpend⟩ := ih (h.skip (.inr hv)) (by omega) hr
          exact ⟨hg, hsub, List.forall_mem_cons.mpr ⟨fun hs => by simp [hv] at hs, hpend⟩⟩
        · next v hv =>
          split at hr
          · cases hr
          · next collected₁ ha =>
            have hcount := unvisited_visit hf p
            have hlen : ((p.importsOf file).reverse ++ pending).length +
                unvisited (visited ++ [file]) p.names.tables ≤ n := by
              rw [List.length_append, List.length_reverse]
              omega
            obtain ⟨hg, hsub, hpend⟩ := ih (h.visit hv ha) hlen hr
            refine ⟨hg, fun f hfv => hsub f (List.mem_append_left _ hfv), ?_⟩
            refine List.forall_mem_cons.mpr ⟨fun _ => hsub file (by simp), fun f hfp => ?_⟩
            exact hpend f (List.mem_append_right _ hfp)

/-- The types active for a file are those of the files its imports lead to: a set of files that
holds the imports and all that its members import. -/
theorem importedTypes_gathered {file : String} {is : List Import} {udts : List Udt}
    (h : Gathered p [] visited collected)
    (hr : p.importedTypes file visited collected is = .ok udts) :
    ∃ visited', Gathered p [] visited' udts ∧ (∀ f ∈ visited, f ∈ visited') ∧
      ∀ i ∈ is, (p.verified? i.file).isSome → i.file ∈ visited' := by
  induction is generalizing visited collected with
  | nil =>
    cases hr
    exact ⟨visited, h, fun _ hf => hf, by simp⟩
  | cons i is ih =>
    unfold importedTypes at hr
    split at hr
    · cases hr
    · next visited₁ collected₁ hc =>
      have hone : Gathered p [i.file] visited collected :=
        ⟨h.nodup, h.types, fun f hf o ho hv => .inl ((h.closed f hf o ho hv).resolve_right (by simp))⟩
      have hbound : [i.file].length + unvisited visited p.names.tables ≤ p.pendingLimit := by
        have hle := unvisited_le visited p.names.tables
        rw [List.length_singleton, pendingLimit]
        omega
      obtain ⟨hg, hsub, hpend⟩ := collectTypes_gathered hone hbound hc
      obtain ⟨visited₂, hg₂, hsub₂, his⟩ := ih hg hr
      refine ⟨visited₂, hg₂, fun f hf => hsub₂ f (hsub f hf), ?_⟩
      refine List.forall_mem_cons.mpr ⟨fun hv => ?_, his⟩
      exact hsub₂ _ (hpend i.file (by simp) hv)

end Project

end StoragePlan
