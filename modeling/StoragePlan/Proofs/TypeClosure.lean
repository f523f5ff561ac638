import Mathlib.Data.List.Nodup
import StoragePlan.Proofs.AddressMap
import StoragePlan.Proofs.Frames
import StoragePlan.Proofs.ImportOrder
import StoragePlan.Proofs.Promises
import StoragePlan.Proofs.Termination

/-!
The types that become active for a file are those of all files that its imports lead to. What every
verified file contributes was fixed when it was checked: its types have different names and sizes,
so what their fields are built on was active then (`Sorted`). The search visits the files that the
imports lead to, each once (`Searched`); it stops early only where two of them have a type of one
name.
-/

namespace StoragePlan

open Relation

/-! ### Types with a size -/

namespace ValueType

variable {m : Tracker} {n : Nat}

theorem based_of_sizeWith {size : String → Except SizeError Nat} {known : String → Prop}
    (hk : ∀ id n, size id = .ok n → known id) {t : ValueType} (h : sizeWith size t = .ok n) :
    t.Based known := by
  induction t generalizing n with
  | prim p => trivial
  | udt id => exact hk id n h
  | undefined => cases h
  | array element dims ih =>
    simp only [sizeWith, bind, Except.bind] at h
    split at h
    · cases h
    · next size he => exact ih he

theorem sized_of_sumFields {sizeOf : ValueType → Except SizeError Nat} {id : String} {sum : Nat}
    {fields : List Member} (h : sumFields sizeOf id sum fields = .ok n) :
    ∀ f ∈ fields, ∃ size, sizeOf (ofId f.typeId) = .ok size := by
  induction fields generalizing sum with
  | nil => simp
  | cons f rest ih =>
    simp only [sumFields, bind, Except.bind] at h
    split at h
    · cases h
    · next size hsize =>
      split at h
      · rw [List.forall_mem_cons]
        exact ⟨⟨size, hsize⟩, ih h⟩
      · cases h

theorem active_of_udtSize {k : Nat} {visiting : List String} {id : String}
    (h : udtSize m k visiting id = .ok n) : m.Active id := by
  cases k with
  | zero => cases h
  | succ k =>
    unfold udtSize at h
    split at h
    · cases h
    · split at h
      · cases h
      · next u hu => simp [Tracker.Active, hu]

/-- The fields of a type that has a size are built on active types. -/
theorem fields_based {id : String} {u : Udt} (h : (udt id).size m = .ok n)
    (hu : m.findUdt? id = some u) : ∀ f ∈ u.fields, (ofId f.typeId).Based m.Active := by
  simp only [size, sizeWith, udtSize, List.contains_nil, Bool.false_eq_true, if_false, hu] at h
  intro f hf
  obtain ⟨size, hsize⟩ := sized_of_sumFields h f hf
  exact based_of_sizeWith (fun id n hid => active_of_udtSize hid) hsize

end ValueType

/-! ### What the check of a file says of its types -/

namespace Check

variable {s s' : Session} {us : List Udt}

/-- Types that are accepted have sizes. -/
theorem typeSizes_sized (ds : List TypeDef) :
    Ends (ds.forM typeSize) s
      (fun _ s' => s' = s ∧ ∀ d ∈ ds, ∃ n, (ValueType.udt d.udt.id).size s.memory = .ok n)
      (fun _ _ => True) := by
  induction ds with
  | nil => exact Ends.pure ⟨rfl, by simp⟩
  | cons d ds ih =>
    have hfirst : Ends (typeSize d) s
        (fun _ s' => s' = s ∧ ∃ n, (ValueType.udt d.udt.id).size s.memory = .ok n)
        (fun _ _ => True) := by
      apply (ofExcept_ends _).seq (fun _ _ _ => trivial)
      rintro id s ⟨rfl, hid⟩
      have hd : d.udt.id = id := by simp [TypeDef.udt, nameOf_eq_ok hid]
      apply (sizeOf_ends _ _).seq (fun _ _ _ => trivial)
      rintro n s ⟨rfl, hn⟩
      exact Ends.pure ⟨rfl, n, hd ▸ hn⟩
    apply hfirst.seq (fun _ _ _ => trivial)
    rintro _ _ ⟨rfl, hd⟩
    apply ih.mono _ (fun _ _ _ => trivial)
    rintro _ s' ⟨rfl, hds⟩
    exact ⟨rfl, List.forall_mem_cons.mpr ⟨hd, hds⟩⟩

/-- The fields of types that are accepted are built on these types and on those active before. -/
theorem types_closed {ds : List TypeDef} (hb : Begins us s) (ht : (s.names.table? s.file).isSome)
    (hn : (us.map (·.id)).Nodup) (hrun : types ds s = .ok () s') :
    (((ds.map (·.udt)).reverse ++ us).map (·.id)).Nodup ∧
    ∀ d ∈ ds, ∀ m ∈ d.udt.fields, (ValueType.ofId m.typeId).Based fun id =>
      id ∈ ((ds.map (·.udt)).reverse ++ us).map (·.id) := by
  have hudts : s'.memory.udts = (ds.map (·.udt)).reverse ++ us :=
    ((types_begins ds hb).ok hrun).1.udts
  have hnodup : (s'.memory.udts.map (·.id)).Nodup := by
    obtain ⟨bs, hgrown⟩ := (grows_types false ds s (by simp [hb.body])).ok hrun
    exact hgrown.shapes ht (hb.udts ▸ hn)
  obtain ⟨_, s₁, -, hrun⟩ := bind_eq_ok hrun
  obtain ⟨_, s₂, -, hsizes⟩ := bind_eq_ok hrun
  obtain ⟨rfl, hsized⟩ := (typeSizes_sized ds).ok hsizes
  rw [← hudts]
  refine ⟨hnodup, fun d hd m hm => ?_⟩
  obtain ⟨n, hsize⟩ := hsized d hd
  have hmem : d.udt ∈ s'.memory.udts := by
    rw [hudts]
    apply List.mem_append_left
    simpa using ⟨d, hd, rfl⟩
  have hbased := ValueType.fields_based hsize (find?_eq_of_nodup hnodup hmem) m hm
  exact hbased.mono fun id hid => Tracker.active_iff.mp hid

/-- The types of a file that is right: those it defines, under different names, with fields built on
these and on the ones that were active. -/
theorem file_types {f : SourceFile} (hb : Begins us s) (ht : (s.names.table? s.file).isSome)
    (hn : (us.map (·.id)).Nodup) (hs : s.udts = []) (hrun : file f s = .ok () s') :
    (s'.udts.map (·.id)).Nodup ∧
    ∀ u ∈ s'.udts, ∀ m ∈ u.fields, (ValueType.ofId m.typeId).Based fun id =>
      id ∈ s'.udts.map (·.id) ∨ id ∈ us.map (·.id) := by
  obtain ⟨bs, hgrown⟩ := (file_ends f hb.body).ok hrun
  have hown : s'.udts = (bs.filterMap (·.udt?)).reverse := by
    have h := hgrown.udts
    simpa [reframed, hb.body, hs] using h
  have hactive : s'.memory.udts = bs.filterMap (·.udt?) ++ us := by
    rw [← hb.udts]
    exact congrArg Tracker.udts hgrown.memory
  obtain ⟨_, s₁, htypes, hrun⟩ := bind_eq_ok hrun
  obtain ⟨_, s₂, hitems, hbodies⟩ := bind_eq_ok hrun
  obtain ⟨hb₂, -⟩ := bodies_begin hb htypes hitems
  have hmemory : s'.memory = s₂.memory := ((functionBodies_ends f.functions hb₂.body).ok hbodies).memory_eq
  have hdefined : s'.udts = f.types.map (·.udt) := by
    rw [hmemory, hb₂.udts, List.append_left_inj] at hactive
    rw [hown, ← hactive, List.reverse_reverse]
  obtain ⟨hnodup, hclosed⟩ := types_closed hb ht hn htypes
  rw [← hdefined] at hnodup hclosed
  rw [List.map_append, List.nodup_append, List.map_reverse, List.nodup_reverse] at hnodup
  refine ⟨hnodup.1, fun u hu m hm => ?_⟩
  rw [hdefined] at hu
  obtain ⟨d, hd, rfl⟩ := List.mem_map.mp hu
  apply (hclosed d hd m hm).mono
  intro id hid
  simpa using hid

end Check

namespace Project

variable {lib : Library} {p p' : Project} {file : String} {source : SourceFile} {udts : List Udt}

/-! ### Verified files -/

/-- The types of a file, if it is verified. -/
def typesOf (p : Project) (file : String) : List Udt := ((p.verified? file).map (·.udts)).getD []

theorem typesOf_of_verified {v : VerifiedFile} (h : p.verified? file = some v) :
    p.typesOf file = v.udts := by
  simp [typesOf, h]

/-- What every moment of a compilation has in common as far as types are concerned: verified files
are in order, and each has types of different names that are built on its own and on those of the
files that it leads to. -/
structure Sorted (p : Project) : Prop where
  quiet : Quiet p
  pending : Pending p
  arranged : Arranged p
  named : ∀ f v, p.verified? f = some v → (v.udts.map (·.id)).Nodup
  grounded : Grounded p

theorem sorted_empty : Sorted empty where
  quiet := quiet_empty
  pending := ⟨List.nodup_nil, by simp [empty]⟩
  arranged := arranged_empty
  named f v h := by cases h
  grounded := grounded_empty

/-- The check of a file begins with nothing on the stack and with the types of its imports. -/
theorem Quiet.begins (h : Quiet p) (file : String) (udts : List Udt) :
    Check.Begins udts.reverse (.start file (p.storageWith udts) p.names) :=
  ⟨udts_storageWith h.udts, (stack_storageWith udts p).trans h.stack, rfl⟩

/-- The types of a file are fixed by its check. -/
theorem checked_types (hq : Quiet p) (hr : Ready lib file source udts p) {v : VerifiedFile}
    (hv : (p.checked file source udts).result = .ok v) :
    (v.udts.map (·.id)).Nodup ∧
    ∀ u ∈ v.udts, ∀ m ∈ u.fields, (ValueType.ofId m.typeId).Based fun id =>
      id ∈ v.udts.map (·.id) ∨ id ∈ udts.map (·.id) := by
  obtain ⟨s, hrun, rfl⟩ := verify_result_ok hv
  obtain ⟨visited, hgather, -, -⟩ := importedTypes_gathered gathered_nil hr.types
  have htable : ((p.names.addFile file).table? file).isSome := by simp [Registry.table?_addFile]
  have hnodup : (udts.reverse.map (·.id)).Nodup := by
    rw [List.map_reverse, List.nodup_reverse]
    exact hgather.nodup
  obtain ⟨hnamed, hclosed⟩ := Check.file_types (hq.begins file udts) htable hnodup rfl hrun
  refine ⟨hnamed, fun u hu m hm => ?_⟩
  apply (hclosed u hu m hm).mono
  intro id hid
  simpa using hid

theorem Sorted.step (h : Sorted p) (hs : Step lib p p') : Sorted p' := by
  have hlater : Later p p' := hs.later
  have hkeep : p'.verified = p.verified →
      (∀ f v, p'.verified? f = some v → (v.udts.map (·.id)).Nodup) ∧ Grounded p' := by
    intro hv
    constructor
    · intro f v hfv
      rw [verified?, hv] at hfv
      exact h.named f v hfv
    · exact h.grounded.later hlater hv
  have hmore : (∀ f v, p'.verified? f = some v → (v.udts.map (·.id)).Nodup) ∧ Grounded p' := by
    rcases hs with hs | hs
    · cases hs with
      | enter => exact hkeep rfl
      | link => exact hkeep rfl
      | @finish file source udts v hr hv =>
        obtain ⟨hnamed, hclosed⟩ := checked_types h.quiet hr hv
        refine ⟨fun f w hw => ?_, h.grounded.accept hr hv hclosed⟩
        rw [verified?_accepted, Option.or_eq_some_iff] at hw
        rcases hw with hw | ⟨-, hw⟩
        · exact h.named f w hw
        · split at hw
          · cases hw
            exact hnamed
          · cases hw
    · cases hs with
      | fail => exact hkeep rfl
      | leave => exact hkeep rfl
  exact ⟨h.quiet.step hs, h.pending.step hs, h.arranged.step h.pending hs, hmore.1, hmore.2⟩

theorem Sorted.steps (h : Sorted p) (hs : Steps lib p p') : Sorted p' :=
  hs.keep (fun _ _ hq hs => hq.step hs) h

theorem afterAll_sorted (calls : List (Library × String)) : Sorted (afterAll calls) := by
  apply afterAll_keep sorted_empty
  intro lib file p h
  have hidle : Sorted p.idle := by
    constructor
    case quiet => exact h.quiet.of_eq rfl rfl
    case pending => exact ⟨List.nodup_nil, by simp [idle]⟩
    case arranged => exact h.arranged.of_eq rfl fun _ => rfl
    case named => exact h.named
    case grounded => exact h.grounded
  exact hidle.steps (after_steps lib file p).1

/-! ### The search -/

/-- The files that some imports lead to by the links of the symbol tables. -/
def LeadTo (p : Project) (is : List Import) (file : String) : Prop :=
  ∃ i ∈ is, ReflTransGen (fun f o => o ∈ p.importsOf f) i.file file

/-- Two different files of these have a type of this name. -/
def Clash (p : Project) (files : String → Prop) (id : String) : Prop :=
  ∃ f g, files f ∧ files g ∧ f ≠ g ∧ id ∈ (p.typesOf f).map (·.id) ∧ id ∈ (p.typesOf g).map (·.id)

/-- The visited files are all different, and their types are collected in the order of the visits;
nothing is visited or pending but the files looked for. -/
structure Searched (p : Project) (files : String → Prop) (pending visited : List String)
    (collected : List Udt) : Prop where
  nodup : visited.Nodup
  types : collected = visited.flatMap p.typesOf
  within : ∀ f, f ∈ visited ∨ f ∈ pending → files f

/-- Adding types fails at the name of one that is there already. -/
theorem addTypes_eq_error {collected us : List Udt} {id : String} (hn : (us.map (·.id)).Nodup)
    (h : addTypes collected us = .error id) :
    id ∈ collected.map (·.id) ∧ id ∈ us.map (·.id) := by
  induction us generalizing collected with
  | nil => cases h
  | cons u us ih =>
    rw [List.map_cons, List.nodup_cons] at hn
    unfold addTypes at h
    split at h
    · next hany =>
      cases h
      constructor
      · simpa using hany
      · exact List.mem_cons_self
    · obtain ⟨hcollected, hrest⟩ := ih hn.2 h
      have hne : id ≠ u.id := by
        intro heq
        exact hn.1 (heq ▸ hrest)
      constructor
      · simpa [hne] using hcollected
      · exact List.mem_cons_of_mem _ hrest

section Search

variable {files : String → Prop} {pending visited : List String} {collected : List Udt}

theorem Searched.skip (h : Searched p files (file :: pending) visited collected) :
    Searched p files pending visited collected where
  nodup := h.nodup
  types := h.types
  within f hf := h.within f (hf.imp id (List.mem_cons_of_mem _))

theorem Searched.visit (h : Searched p files (file :: pending) visited collected)
    (hclosed : ∀ f, files f → ∀ o ∈ p.importsOf f, files o) (hnew : file ∉ visited) :
    Searched p files ((p.importsOf file).reverse ++ pending) (visited ++ [file])
      (collected ++ p.typesOf file) where
  nodup := by
    rw [List.nodup_append]
    refine ⟨h.nodup, by simp, fun f hf g hg heq => hnew ?_⟩
    rwa [← List.mem_singleton.mp hg, ← heq]
  types := by simp [h.types]
  within f hf := by
    have hfile : files file := h.within file (.inr List.mem_cons_self)
    simp only [List.mem_append, List.mem_singleton, List.mem_reverse] at hf
    rcases hf with (hf | rfl) | (hf | hf)
    · exact h.within f (.inl hf)
    · exact hfile
    · exact hclosed file hfile f hf
    · exact h.within f (.inr (List.mem_cons_of_mem _ hf))

/-- What a search ends with: the files it has found, or a name that two of them share. -/
theorem collects_searched {n : Nat} {r : Except String (List String × List Udt)}
    (hc : Collects p n pending visited collected r) (hp : Sorted p)
    (hclosed : ∀ f, files f → ∀ o ∈ p.importsOf f, files o)
    (h : Searched p files pending visited collected) :
    (∀ visited' collected', r = .ok (visited', collected') →
      Searched p files [] visited' collected') ∧
    ∀ id, r = .error id → Clash p files id := by
  induction hc with
  | emptied =>
    constructor
    · rintro _ _ ⟨⟩
      exact h
    · rintro id ⟨⟩
  | again _ _ ih => exact ih h.skip
  | unverified _ _ _ ih => exact ih h.skip
  | @clash file id pending visited collected v hnew hv ha =>
    constructor
    · rintro _ _ ⟨⟩
    · rintro _ ⟨⟩
      obtain ⟨hcollected, hown⟩ := addTypes_eq_error (hp.named file v hv) ha
      obtain ⟨u, hu, rfl⟩ := List.mem_map.mp hcollected
      rw [h.types] at hu
      obtain ⟨g, hg, hu⟩ := List.mem_flatMap.mp hu
      have hne : g ≠ file := fun heq => hnew (heq ▸ hg)
      refine ⟨g, file, h.within g (.inl hg), h.within file (.inr List.mem_cons_self), hne, ?_, ?_⟩
      · exact List.mem_map_of_mem hu
      · rwa [typesOf_of_verified hv]
  | @visit n file pending visited collected collected' v r hnew hv ha _ ih =>
    apply ih
    rw [(addTypes_eq_ok ha).1, ← typesOf_of_verified hv]
    exact h.visit hclosed hnew

/-- The search never runs into its bound. -/
theorem collects_pendingLimit (p : Project) (imported : String) (visited : List String)
    (collected : List Udt) :
    ∃ n, Collects p n [imported] visited collected
      (p.collectTypes p.pendingLimit [imported] visited collected) := by
  obtain ⟨n, r, hc, hn⟩ := p.collects [imported] visited collected
  have hlimit : n ≤ p.pendingLimit := by
    have hle := unvisited_le visited p.names.tables
    rw [List.length_singleton] at hn
    rw [pendingLimit]
    omega
  exact ⟨n, (hc.eq_collectTypes hlimit).symm ▸ hc⟩

/-- The searches for all imports in turn. -/
theorem importedTypes_searched (file : String) (hp : Sorted p)
    (hclosed : ∀ f, files f → ∀ o ∈ p.importsOf f, files o) {is : List Import}
    (his : ∀ i ∈ is, files i.file) (hg : Gathered p [] visited collected)
    (hs : Searched p files [] visited collected) :
    (∀ udts, p.importedTypes file visited collected is = .ok udts →
      ∃ found, Searched p files [] found udts ∧ Gathered p [] found udts ∧
        (∀ f ∈ visited, f ∈ found) ∧ ∀ i ∈ is, (p.verified? i.file).isSome → i.file ∈ found) ∧
    ∀ e, p.importedTypes file visited collected is = .error e →
      ∃ i ∈ is, ∃ id, Clash p files id ∧ e = .semantic file ⟨i.token.position, .nameInUse id⟩ := by
  induction is generalizing visited collected with
  | nil =>
    constructor
    · rintro _ ⟨⟩
      exact ⟨visited, hs, hg, fun _ hf => hf, by simp⟩
    · rintro _ ⟨⟩
  | cons i is ih =>
    rw [List.forall_mem_cons] at his
    have hpending : Searched p files [i.file] visited collected := by
      refine ⟨hs.nodup, hs.types, fun f hf => ?_⟩
      rcases hf with hf | hf
      · exact hs.within f (.inl hf)
      · exact List.mem_singleton.mp hf ▸ his.1
    have hgpending : Gathered p [i.file] visited collected := by
      refine ⟨hg.nodup, hg.types, fun f hf o ho hv => .inl ?_⟩
      exact (hg.closed f hf o ho hv).resolve_right (by simp)
    have hbound : [i.file].length + unvisited visited p.names.tables ≤ p.pendingLimit := by
      have hle := unvisited_le visited p.names.tables
      rw [List.length_singleton, pendingLimit]
      omega
    obtain ⟨n, hc⟩ := collects_pendingLimit p i.file visited collected
    obtain ⟨hok, herror⟩ := collects_searched hc hp hclosed hpending
    unfold importedTypes
    cases hr : p.collectTypes p.pendingLimit [i.file] visited collected with
    | error id =>
      constructor
      · rintro _ ⟨⟩
      · rintro _ ⟨⟩
        exact ⟨i, List.mem_cons_self, id, herror id hr, rfl⟩
    | ok r =>
      obtain ⟨visited₁, collected₁⟩ := r
      obtain ⟨hg₁, hsub, hfound⟩ := collectTypes_gathered hgpending hbound hr
      obtain ⟨hdone, hfailed⟩ := ih his.2 hg₁ (hok visited₁ collected₁ hr)
      constructor
      · intro udts hudts
        obtain ⟨found, hs', hg', hsub', himports⟩ := hdone udts hudts
        refine ⟨found, hs', hg', fun f hf => hsub' f (hsub f hf), ?_⟩
        rw [List.forall_mem_cons]
        exact ⟨fun hv => hsub' _ (hfound i.file (by simp) hv), himports⟩
      · intro e he
        obtain ⟨j, hj, hclash⟩ := hfailed e he
        exact ⟨j, List.mem_cons_of_mem _ hj, hclash⟩

end Search

variable {is : List Import}

theorem LeadTo.closed {f : String} (h : p.LeadTo is f) : ∀ o ∈ p.importsOf f, p.LeadTo is o := by
  obtain ⟨i, hi, hreach⟩ := h
  exact fun o ho => ⟨i, hi, hreach.tail ho⟩

/-- A search that ends has found all that the imports lead to. -/
theorem Gathered.complete {found : List String} (h : Gathered p [] found udts) (hp : Arranged p)
    (his : ∀ i ∈ is, i.file ∈ found) {f : String} (hf : p.LeadTo is f) : f ∈ found := by
  obtain ⟨i, hi, hreach⟩ := hf
  induction hreach with
  | refl => exact his i hi
  | tail _ ho ih =>
    have hv := mem_order.mp (hp.linked _ _ ho)
    exact (h.closed _ ih _ ho hv).resolve_right (by simp)

/-- Where the types of some files have different names, no two files have a type of one name. -/
theorem Searched.no_clash {files : String → Prop} {found : List String}
    (h : Searched p files [] found udts) (hn : (udts.map (·.id)).Nodup)
    (hfound : ∀ f, files f → f ∈ found) (id : String) : ¬ Clash p files id := by
  rintro ⟨f, g, hf, hg, hne, hidf, hidg⟩
  rw [h.types, List.map_flatMap, List.nodup_flatMap] at hn
  have hsymm : Std.Symm (Function.onFun List.Disjoint fun f => (p.typesOf f).map (·.id)) :=
    ⟨fun _ _ hd => hd.symm⟩
  exact hn.2.forall (hfound f hf) (hfound g hg) hne hidf hidg

end Project

open Project

/-- The types that become active for a file are those of all files that its imports lead to. At every
moment of every attempt to compile, let all of some imports be verified; then so is every file that
they lead to. If no two of these files have a type of one name, the search answers the types of these
files one after the other, each file once, and the fields of these types are built on types among
them. Otherwise it fails at one of the imports, with a name that two of the files share. -/
theorem imported_types_are_closure (calls : List (Library × String)) (lib : Library) {p : Project}
    (hp : Steps lib (afterAll calls) p) (file : String) (is : List Import)
    (his : ∀ i ∈ is, (p.verified? i.file).isSome) :
    (∀ f, p.LeadTo is f → (p.verified? f).isSome) ∧
    ((∀ id, ¬ p.Clash (p.LeadTo is) id) → ∃ (udts : List Udt) (files : List String),
      p.importedTypes file [] [] is = .ok udts ∧
      files.Nodup ∧ (∀ f, f ∈ files ↔ p.LeadTo is f) ∧ udts = files.flatMap p.typesOf ∧
      ∀ u ∈ udts, ∀ m ∈ u.fields,
        (ValueType.ofId m.typeId).Based fun id => id ∈ udts.map (·.id)) ∧
    ((∃ id, p.Clash (p.LeadTo is) id) → ∃ i ∈ is, ∃ id, p.Clash (p.LeadTo is) id ∧
      p.importedTypes file [] [] is =
        .error (.semantic file ⟨i.token.position, .nameInUse id⟩)) := by
  have hsorted : Sorted p := (afterAll_sorted calls).steps hp
  have hstart : Searched p (p.LeadTo is) [] [] [] := ⟨List.nodup_nil, rfl, by simp⟩
  have hroots : ∀ i ∈ is, p.LeadTo is i.file := fun i hi => ⟨i, hi, .refl⟩
  obtain ⟨hok, herror⟩ := importedTypes_searched file hsorted (fun f => LeadTo.closed) hroots
    gathered_nil hstart
  have hverified : ∀ f, p.LeadTo is f → (p.verified? f).isSome := by
    rintro f ⟨i, hi, hreach⟩
    cases hreach with
    | refl => exact his i hi
    | tail _ ho => exact mem_order.mp (hsorted.arranged.linked _ _ ho)
  refine ⟨hverified, ?_⟩
  cases hr : p.importedTypes file [] [] is with
  | error e =>
    obtain ⟨i, hi, id, hclash, rfl⟩ := herror e hr
    constructor
    · intro hnone
      exact absurd hclash (hnone id)
    · intro _
      exact ⟨i, hi, id, hclash, rfl⟩
  | ok udts =>
    obtain ⟨files, hs, hg, -, himports⟩ := hok udts hr
    have hfound : ∀ f, p.LeadTo is f → f ∈ files := fun f =>
      hg.complete hsorted.arranged fun i hi => himports i hi (his i hi)
    constructor
    · intro _
      refine ⟨udts, files, rfl, hs.nodup, fun f => ⟨fun hf => hs.within f (.inl hf), hfound f⟩,
        hs.types, fun u hu m hm => ?_⟩
      obtain ⟨f, hf, v, hv, huv⟩ := (hg.types u).mp hu
      have hdown : p.Downward (· ∈ files) := fun f hf o ho hov =>
        (hg.closed f hf o ho hov).resolve_right (by simp)
      apply (hsorted.grounded f v hv _ hf hdown u huv m hm).mono
      rintro id ⟨g, w, hg', hw, hid⟩
      obtain ⟨u', hu', rfl⟩ := List.mem_map.mp hid
      exact List.mem_map_of_mem ((hg.types u').mpr ⟨g, hg', w, hw, hu'⟩)
    · rintro ⟨id, hclash⟩
      exact absurd hclash (hs.no_clash hg.nodup hfound id)

/-- A library with a file of types, two files that use them, and one with a type of another's name. -/
def sharedShapes : Library :=
  .ofTexts [("base", "export type P \x7b x: u8 \x7d"),
    ("left", "import \"base\"; export type L \x7b ps: P[2] \x7d"),
    ("right", "import \"base\"; export type R \x7b p: P, n: u16 \x7d"),
    ("other", "export type L \x7b y: u8 \x7d")]

/-- A project in which all of them are verified. -/
def shapesProject : Project :=
  afterAll [(sharedShapes, "left"), (sharedShapes, "right"), (sharedShapes, "other")]

/-- Imports of some files, one on each line. -/
def importsOnLines (files : List String) : List Import :=
  files.zipIdx.map fun (file, n) => ⟨⟨.keyword .importKw, ⟨n + 1, 1⟩⟩, file⟩

/-- The shared types are found once; two files that share a name are not imported together. -/
theorem imported_types_are_closure_sharedShapes :
    (∃ (udts : List Udt) (files : List String),
      shapesProject.importedTypes "main" [] [] (importsOnLines ["right", "left", "right"]) = .ok udts ∧
      udts.map (·.id) = ["R", "P", "L"] ∧
      (∀ f, f ∈ files ↔ shapesProject.LeadTo (importsOnLines ["right", "left", "right"]) f) ∧
      udts = files.flatMap shapesProject.typesOf) ∧
    ∃ i ∈ importsOnLines ["left", "other"], ∃ id,
      shapesProject.Clash (shapesProject.LeadTo (importsOnLines ["left", "other"])) id ∧
      shapesProject.importedTypes "main" [] [] (importsOnLines ["left", "other"]) =
        .error (.semantic "main" ⟨i.token.position, .nameInUse id⟩) := by
  have hreached : Steps sharedShapes
      (afterAll [(sharedShapes, "left"), (sharedShapes, "right"), (sharedShapes, "other")])
      shapesProject := .refl
  have hverified : ∀ i ∈ importsOnLines ["right", "left", "right"] ++ importsOnLines ["left", "other"],
      (shapesProject.verified? i.file).isSome = true := by decide +kernel
  have hshared : (shapesProject.importedTypes "main" [] []
      (importsOnLines ["right", "left", "right"])).toOption.map (·.map (·.id)) =
        some ["R", "P", "L"] := by decide +kernel
  have hapart : (shapesProject.importedTypes "main" [] []
      (importsOnLines ["left", "other"])).toOption.isNone = true := by decide +kernel
  obtain ⟨-, hfound, hclash⟩ := imported_types_are_closure _ _ hreached "main"
    (importsOnLines ["right", "left", "right"]) fun i hi => hverified i (List.mem_append_left _ hi)
  obtain ⟨-, hfound', hclash'⟩ := imported_types_are_closure _ _ hreached "main"
    (importsOnLines ["left", "other"]) fun i hi => hverified i (List.mem_append_right _ hi)
  constructor
  · obtain ⟨udts, files, hok, -, hfiles, htypes, -⟩ := hfound fun id hid => by
      obtain ⟨_, _, _, _, herror⟩ := hclash ⟨id, hid⟩
      rw [herror] at hshared
      simp [Except.toOption] at hshared
    rw [hok] at hshared
    exact ⟨udts, files, hok, Option.some.inj hshared, hfiles, htypes⟩
  · apply hclash'
    by_contra hnone
    obtain ⟨udts, _, hok, -⟩ := hfound' (not_exists.mp hnone)
    rw [hok] at hapart
    simp [Except.toOption] at hapart

end StoragePlan
