import StoragePlan.Proofs.Ownership
import StoragePlan.Proofs.Promises
import StoragePlan.Proofs.Recheck

/-!
The check of a file that has failed, tried once more. What the failed check has left is found again:
if it has left nothing the second check fails in the same way, and otherwise it refuses the first name
of the file, which is there already.
-/

namespace StoragePlan

namespace Project

variable {lib : Library} {p p' : Project} {file : String} {source : SourceFile} {udts : List Udt}

/-! ### Imports do not change -/

theorem collectTypes_congr (hv : ∀ f, p'.verified? f = p.verified? f)
    (hi : ∀ f, p'.importsOf f = p.importsOf f) (n : Nat) (pending visited : List String)
    (collected : List Udt) :
    collectTypes p' n pending visited collected = collectTypes p n pending visited collected := by
  induction n generalizing pending visited collected with
  | zero => cases pending <;> rfl
  | succ n ih =>
    cases pending with
    | nil => rfl
    | cons file pending => simp only [collectTypes, hv, hi, ih]

theorem importedTypes_congr (hv : ∀ f, p'.verified? f = p.verified? f)
    (hi : ∀ f, p'.importsOf f = p.importsOf f) (hl : p'.pendingLimit = p.pendingLimit)
    (visited : List String) (collected : List Udt) (is : List Import) :
    p'.importedTypes file visited collected is = p.importedTypes file visited collected is := by
  induction is generalizing visited collected with
  | nil => rfl
  | cons i is ih => simp only [importedTypes, hl, collectTypes_congr hv hi, ih]

theorem pendingLimit_settled (ht : (p.names.table? file).isSome) :
    (p.settled (p.checked file source udts)).pendingLimit = p.pendingLimit := by
  obtain ⟨es, us, ss, hl⟩ := verify_left file (p.storageWith udts) p.names source
  have hm : (p.settled (p.checked file source udts)).names.tables.map (·.outer) =
      p.names.tables.map (·.outer) := by
    simp only [settled, checked, hl.tables, Registry.addFile_of_isSome ht, Registry.onTable]
    exact map_updateFirst (fun t => t.outer_grow ss) _
  simp only [pendingLimit, List.flatMap_def, hm]

/-- After a check the types of the imports are the same as before. -/
theorem importedTypes_settled (ht : (p.names.table? file).isSome) (is : List Import) :
    (p.settled (p.checked file source udts)).importedTypes file [] [] is =
      p.importedTypes file [] [] is := by
  have hv : ∀ f, (p.settled (p.checked file source udts)).verified? f = p.verified? f :=
    fun _ => rfl
  exact importedTypes_congr hv importsOf_settled (pendingLimit_settled ht) [] [] is

/-! ### What a failed check has left -/

/-- The names of a file that can be loaded stand at places of their own. -/
theorem load_nodup (h : load lib file = .ok source) :
    ((source.items.flatMap Item.names).map (·.position)).Nodup := by
  obtain ⟨text, hp⟩ := load_eq_ok h
  have hs := (SourceFile.parse_sound (scan_sound text) hp).2
  exact (scan_nodup text).sublist (hs.map (·.position))

/-- The check of the file begins again in a session that is alike. -/
theorem alike_settled (ht : (p.names.table? file).isSome)
    (hl : Left [] [] [] file (p.storageWith udts) p.names (p.checked file source udts)) :
    Check.Alike (.start file (p.storageWith udts) p.names)
      (.start file ((p.settled (p.checked file source udts)).storageWith udts)
        (p.settled (p.checked file source udts)).names) where
  file := rfl
  memory := by
    have hm := memory_settled hl
    rw [Tracker.grow_nil] at hm
    simp only [Session.start, storageWith, hm]
  outline := by
    have htables : (p.settled (p.checked file source udts)).names.tables = p.names.tables := by
      simp only [settled, hl.tables, Registry.addFile_of_isSome ht]
      simp [Registry.onTable, updateFirst_id]
    have ht' : ((p.settled (p.checked file source udts)).names.table? file).isSome :=
      isSome_table?_settled file ht
    simp only [Session.start, Registry.addFile_of_isSome ht, Registry.addFile_of_isSome ht']
    exact Registry.outline_congr htables
  body := rfl

/-- The first name of the file is found where the failed check has left it. -/
theorem current?_settled {es : List Element} {us : List Udt} {ss : List Symbol}
    (ht : (p.names.table? file).isSome)
    (hl : Left es us ss file (p.storageWith udts) p.names (p.checked file source udts))
    {x : Symbol} (hx : x ∈ ss) :
    ∃ previous, (Session.start file ((p.settled (p.checked file source udts)).storageWith udts)
      (p.settled (p.checked file source udts)).names).names.current? file x.id = some previous := by
  obtain ⟨t, ht'⟩ := Option.isSome_iff_exists.mp ht
  have htable : (p.settled (p.checked file source udts)).names.table? file = some (t.grow ss) := by
    simp only [settled, Registry.table?_congr hl.tables, Registry.addFile_of_isSome ht]
    rw [Registry.table?_onTable (fun t => t.file_grow ss), ht', Option.map_some]
  have hsome : ((p.settled (p.checked file source udts)).names.table? file).isSome := by
    simp [htable]
  have hne : (t.grow ss).current? x.id ≠ none := fun hnone =>
    (SymbolTable.current?_grow.mp hnone).2 x hx rfl
  simp only [Session.start, Registry.addFile_of_isSome hsome, Registry.current?, htable,
    Option.bind_some]
  exact Option.ne_none_iff_exists'.mp hne

/-- A file that has failed fails again, with the same fault if and only if nothing of it was
declared. -/
theorem fault_again (hq : Quiet p) (hload : load lib file = .ok source)
    (ht : (p.names.table? file).isSome) {f : SemanticFault}
    (hf : (p.checked file source udts).result = .error f) :
    ∃ f', ((p.settled (p.checked file source udts)).checked file source udts).result = .error f' ∧
      (f' = f ↔ (p.settled (p.checked file source udts)).declared file = p.declared file) := by
  obtain ⟨s, hrun⟩ := verify_result_error hf
  rcases Check.file_fails rfl hrun with hquiet | ⟨t, rest, hd, hbegun⟩
  · have hl : Left [] [] [] file (p.storageWith udts) p.names (p.checked file source udts) :=
      hquiet.grown.remains.left hrun
    obtain ⟨t', hagain⟩ := hquiet.again _ (alike_settled ht hl)
    refine ⟨f, by rw [checked, verify_of_error hagain], ?_⟩
    simp [declared_settled hq hl]
  · obtain ⟨es, us, ss, hremains, x, hx, hid⟩ := hbegun.remains
    have hl : Left es us ss file (p.storageWith udts) p.names (p.checked file source udts) :=
      hremains.left hrun
    obtain ⟨previous, hprevious⟩ := current?_settled ht hl hx
    have hagain := Check.file_refused hd hid hprevious
    refine ⟨_, by rw [checked, verify_of_error hagain], iff_of_false (fun heq => ?_) fun heq => ?_⟩
    · obtain ⟨o, ho, hp⟩ := hbegun.refuses (by rw [← heq]; rfl)
      rw [← heq] at hp
      exact SourceFile.first_ne (load_nodup hload) hd o ho hp.symm
    · rw [declared_settled hq hl, List.append_right_eq_self, List.reverse_eq_nil_iff] at heq
      simp [heq] at hx

/-- The check of a file that has failed fails again. -/
theorem check_again (hq : Quiet p) (hload : load lib file = .ok source)
    (ht : (p.names.table? file).isSome) {e : ProjectError}
    (hrun : Compile.check file source p = .error e p') :
    ∃ e' p'', Compile.check file source p' = .error e' p'' ∧ (∃ f, e = .semantic file f) ∧
      (e' = e ↔ p'.declared file = p.declared file) := by
  rcases check_ends.error hrun with ⟨rfl, hu⟩ | ⟨udts, f, hu, hf, rfl, rfl⟩
  · obtain ⟨q, id, rfl⟩ := importedTypes_eq_error hu
    exact ⟨_, _, hrun, ⟨_, rfl⟩, by simp⟩
  · obtain ⟨f', hf', hiff⟩ := fault_again hq hload ht hf
    have hu' : (p.settled (p.checked file source udts)).importedTypes file [] [] source.imports =
        .ok udts := (importedTypes_settled ht source.imports).trans hu
    cases hagain : Compile.check file source (p.settled (p.checked file source udts)) with
    | ok u p'' =>
      obtain ⟨udts', v, hu'', hv, _⟩ := check_ends.ok hagain
      cases hu'.symm.trans hu''
      rw [hf'] at hv
      cases hv
    | error e' p'' =>
      refine ⟨e', p'', rfl, ⟨f, rfl⟩, ?_⟩
      rcases check_ends.error hagain with ⟨_, hu''⟩ | ⟨udts', f'', hu'', hf'', rfl, _⟩
      · cases hu'.symm.trans hu''
      · cases hu'.symm.trans hu''
        cases hf'.symm.trans hf''
        rw [← hiff]
        simp

end Project

end StoragePlan
