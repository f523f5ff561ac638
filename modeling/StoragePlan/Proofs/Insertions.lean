import Mathlib.Data.List.Induction
import StoragePlan.Proofs.Agreement
import StoragePlan.Proofs.Restoration

/-!
How the data segment came about. Only the functions, variables and constants at the top level of files
put elements into it, one at a time and at its end. So the data segment of a project has a history: for
every element there is the item that declared it and the session in which the item was checked, and at
that moment the data segment was what now stands before the element.
-/

namespace StoragePlan

open Relation (ReflTransGen)

/-- The check of the item in the session puts the element behind the globals. -/
def Inserts (i : Item) (s : Session) (e : Element) : Prop :=
  ∃ s', Check.item i s = .ok () s' ∧ s'.memory.dataSegment = s.memory.dataSegment ++ [e]

/-- The globals become others by insertions in turn; `met` says which items are checked in which
sessions. -/
def Filled (met : Item → Session → Prop) : List Element → List Element → Prop :=
  ReflTransGen fun ds ds' => ∃ i s e, met i s ∧ Inserts i s e ∧ s.memory.dataSegment = ds ∧
    ds' = ds ++ [e]

theorem Filled.mono {met met' : Item → Session → Prop} {ds ds' : List Element}
    (h : Filled met ds ds') (hm : ∀ i s, met i s → met' i s) : Filled met' ds ds' := by
  refine h.lift id ?_
  rintro ds ds' ⟨i, s, e, hi, hrest⟩
  exact ⟨i, s, e, hm i s hi, hrest⟩

/-- Each element was put behind those before it. -/
theorem Filled.insertion {met : Item → Session → Prop} {ds : List Element} (h : Filled met [] ds)
    {k : Nat} {e : Element} (hk : ds[k]? = some e) :
    ∃ i s, met i s ∧ Inserts i s e ∧ s.memory.dataSegment = ds.take k := by
  induction h with
  | refl => simp at hk
  | @tail ds ds' _ hs ih =>
    obtain ⟨i, s, e', hm, hi, hds, rfl⟩ := hs
    have hlt : k < (ds ++ [e']).length := (List.getElem?_eq_some_iff.mp hk).1
    rw [List.length_append, List.length_singleton] at hlt
    rcases Nat.lt_succ_iff_lt_or_eq.mp hlt with hlt | rfl
    · rw [List.getElem?_append_left hlt] at hk
      rw [List.take_append_of_le_length (Nat.le_of_lt hlt)]
      exact ih hk
    · rw [List.getElem?_concat_length, Option.some.injEq] at hk
      subst hk
      exact ⟨i, s, hm, hi, by rw [hds, List.take_left]⟩

namespace Check

variable {s s' : Session}

/-! ### Items -/

theorem Grown.dataSegment {b : Binding} {e : Element} (h : Grown [b] s s') (hs : s.body = none)
    (he : b.holding = .element e) : s'.memory.dataSegment = s.memory.dataSegment ++ [e] := by
  simp [h.memory, Tracker.gain, Tracker.grow, hs, Binding.element?, he]

end Check

theorem Inserts.stores {i : Item} {s : Session} {e : Element} (h : Inserts i s e)
    (hs : s.body = none) : Check.Stores i s e := by
  obtain ⟨s', hrun, hds⟩ := h
  rcases (Check.item_stores i hs).ok hrun with rfl | ⟨b, e', hg, he, hstores⟩
  · simp at hds
  · obtain rfl : e = e' := by simpa [hg.dataSegment hs he] using hds.symm
    exact hstores

/-- Where items find room, the globals fit into the address space. -/
theorem Filled.bytesOf_le {met : Item → Session → Prop} (hm : ∀ i s, met i s → s.body = none)
    {ds : List Element} (h : Filled met [] ds) : bytesOf ds ≤ maxStorage := by
  induction h with
  | refl => exact Nat.zero_le _
  | tail _ hs ih =>
    obtain ⟨i, s, e, hmet, hi, rfl, rfl⟩ := hs
    exact (hi.stores (hm i s hmet)).room ih

/-! ### Files -/

/-- The item is checked in the session while a file is checked. -/
def MetIn (source : SourceFile) (s₀ : Session) (i : Item) (s : Session) : Prop :=
  Reaches (.file source) s₀ (.item i) s

namespace Check

variable {s s' s₀ : Session} {source : SourceFile}

theorem items_filled (hs₀ : s₀.body = none) (is : List Item)
    (hr : Reaches (.file source) s₀ (.items is) s) :
    Ends (is.forM item) s
      (fun _ s' => Filled (MetIn source s₀) s.memory.dataSegment s'.memory.dataSegment ∧
        s'.body = none)
      (fun _ s' => Filled (MetIn source s₀) s.memory.dataSegment s'.memory.dataSegment) := by
  have hs : s.body = none := (hr.leads hs₀).2
  induction is generalizing s with
  | nil => exact Ends.pure ⟨.refl, hs⟩
  | cons i is ih =>
    refine ((item_stores i hs).and .run).seq (fun _ _ h => ?_) ?_
    · rw [Filled, h.1.memory_eq]
    · rintro _ s₁ ⟨h₁, hrun⟩
      have hitem : Reaches (.file source) s₀ (.item i) s :=
        hr.trans (.call (x := pure (.item i)) (by simp [Task.calls]) rfl (.here _ _))
      have hrest : Reaches (.file source) s₀ (.items is) s₁ :=
        hr.trans (.call (x := do item i; return .items is) (by simp [Task.calls])
          (bind_of_ok hrun) (.here _ _))
      have hfirst : Filled (MetIn source s₀) s.memory.dataSegment s₁.memory.dataSegment := by
        rcases h₁ with rfl | ⟨b, e, hg, he, _⟩
        · exact .refl
        · have hds := hg.dataSegment hs he
          exact .single ⟨i, s, e, hitem, ⟨s₁, hrun, hds⟩, rfl, hds⟩
      exact (ih hrest (hrest.leads hs₀).2).mono (fun _ _ h => ⟨hfirst.trans h.1, h.2⟩)
        (fun _ _ h => hfirst.trans h)

theorem Unwound.dataSegment (h : Unwound s s') :
    s'.memory.dataSegment = s.memory.dataSegment := by
  have hm := congrArg Tracker.dataSegment h.remains.memory
  rwa [Tracker.dataSegment_closeTo, Tracker.grow_nil] at hm

/-- The bodies of functions put nothing behind the globals. -/
theorem functionBodies_dataSegment (ds : List FunctionDef) (hs : s.body = none) :
    Ends (ds.forM functionBody) s
      (fun _ s' => s'.memory.dataSegment = s.memory.dataSegment)
      (fun _ s' => s'.memory.dataSegment = s.memory.dataSegment) := by
  induction ds generalizing s with
  | nil => exact Ends.pure rfl
  | cons d ds ih =>
    refine (functionBody_ends d hs).seq (fun _ _ h => h.dataSegment) fun _ s₁ h₁ => ?_
    have hs₁ : s₁.body = none := by simpa [hs, reframed] using h₁.isSome_body
    have hm : s₁.memory = s.memory := h₁.memory_eq
    exact hm ▸ ih hs₁

/-- The check of a file puts elements behind the globals, item by item. -/
theorem file_filled (source : SourceFile) (hs₀ : s₀.body = none) :
    Ends (file source) s₀
      (fun _ s' => Filled (MetIn source s₀) s₀.memory.dataSegment s'.memory.dataSegment)
      (fun _ s' => Filled (MetIn source s₀) s₀.memory.dataSegment s'.memory.dataSegment) := by
  have hshaped : ∀ us s', Shaped us s₀ s' → s'.memory.dataSegment = s₀.memory.dataSegment := by
    intro us s' h
    simp [h.memory, hs₀, Tracker.grow]
  refine ((types_shaped source.types).and .run).seq ?_ ?_
  · rintro _ s' ⟨⟨us, h⟩, _⟩
    rw [Filled, hshaped us s' h]
  · rintro _ s₁ ⟨h₁, hrun⟩
    have hitems : Reaches (.file source) s₀ (.items source.items) s₁ :=
      .call (x := do types source.types; return .items source.items) (by simp [Task.calls])
        (bind_of_ok hrun) (.here _ _)
    rw [← hshaped _ s₁ h₁]
    refine (items_filled hs₀ source.items hitems).seq (fun _ _ h => h) ?_
    rintro _ s₂ ⟨h₂, hs₂⟩
    exact (functionBodies_dataSegment source.functions hs₂).mono (fun _ _ h => h ▸ h₂)
      (fun _ _ h => h ▸ h₂)

end Check

theorem verify_filled (file : String) (memory : Tracker) (names : Registry) (source : SourceFile) :
    Filled (MetIn source (.start file memory names)) memory.dataSegment
      (verify file memory names source).memory.dataSegment := by
  let s₀ := Session.start file memory names
  have hends := Check.file_filled source (show s₀.body = none from rfl)
  cases hrun : Check.file source (.start file memory names) with
  | ok u s =>
    rw [verify_of_ok hrun]
    exact hends.ok hrun
  | error f s =>
    rw [verify_of_error hrun, Tracker.dataSegment_closeTo]
    exact hends.error hrun

/-! ### Projects -/

/-- The item is checked in the session while a file is compiled, at most `n` imports deep. -/
def Meets (lib : Library) (n : Nat) (file : String) (p : Project) (i : Item) (s : Session) : Prop :=
  ∃ source s₀, Starts lib n file p source s₀ ∧ MetIn source s₀ i s

theorem Starts.body {lib : Library} {n : Nat} {file : String} {p : Project} {source : SourceFile}
    {s : Session} (h : Starts lib n file p source s) : s.body = none := by
  induction h with
  | here => rfl
  | within _ _ _ _ _ _ ih => exact ih

theorem Meets.body {lib : Library} {n : Nat} {file : String} {p : Project} {i : Item} {s : Session}
    (h : Meets lib n file p i s) : s.body = none := by
  obtain ⟨source, s₀, hs, hr⟩ := h
  exact (hr.leads hs.body).2

namespace Compile

theorem imports_append (sub : String → Compile Unit) (file : String) (is js : List Import) :
    imports sub file (is ++ js) = (do imports sub file is; imports sub file js) := by
  induction is with
  | nil => rfl
  | cons i is ih =>
    simp only [List.cons_append, imports, ih, bind_assoc]
    congr 1
    funext q
    split
    · rfl
    · simp only [bind_assoc]

end Compile

namespace Project

open Compile

variable {lib : Library} {p q : Project} {file : String} {source : SourceFile}

/-- A step of a compilation, successful or not, fills the data segment with the items that are met. -/
def Fills (met : Item → Session → Prop) (x : Compile Unit) (p : Project) : Prop :=
  Ends x p (fun _ p' => Filled met p.memory.dataSegment p'.memory.dataSegment)
    (fun _ p' => Filled met p.memory.dataSegment p'.memory.dataSegment)

theorem Fills.mono {met met' : Item → Session → Prop} {x : Compile Unit} (h : Fills met x p)
    (hm : ∀ i s, met i s → met' i s) : Fills met' x p :=
  Ends.mono h (fun _ _ h => h.mono hm) (fun _ _ h => h.mono hm)

/-- The imports of a file that follow those in `done`. -/
theorem imports_filled {n : Nat}
    (ih : ∀ other p, Fills (Meets lib n other p) (fileWithin lib n other) p)
    (hv : p.verified? file = none) (hl : load lib file = .ok source) (done is : List Import)
    (hsplit : source.imports = done ++ is)
    (hdone : imports (fileWithin lib n) file done (p.entered file) = .ok () q) :
    Fills (Meets lib (n + 1) file p) (imports (fileWithin lib n) file is) q := by
  -- The run of the imports so far is part of how a check further down is reached.
  induction is generalizing q done with
  | nil => exact Ends.pure .refl
  | cons i is ihis =>
    refine Ends.bind (Ends.get ?_)
    dsimp only
    split
    · exact Ends.throw .refl
    · next hc =>
      have hnew : i.file ∉ q.active := by simpa using hc
      have hwithin : ∀ j s, Meets lib n i.file q j s → Meets lib (n + 1) file p j s := by
        rintro j s ⟨other, s₀, hs, hr⟩
        exact ⟨other, s₀, .within hv hl hsplit hdone hnew hs, hr⟩
      have hsub : Fills (Meets lib (n + 1) file p) (wrapping file i (fileWithin lib n i.file)) q :=
        wrapping_ends ((ih i.file q).mono hwithin)
      refine (Ends.and hsub .run).seq (fun _ _ h => h.1) ?_
      rintro _ q₁ ⟨h₁, hrun⟩
      refine Ends.bind (Ends.modify ?_)
      have hnext : imports (fileWithin lib n) file (done ++ [i]) (p.entered file) =
          .ok () (q₁.linked file i.file) := by
        rw [imports_append, bind_of_ok hdone, imports, bind_get]
        simp only [hc, Bool.false_eq_true, if_false]
        exact (bind_of_ok hrun).trans rfl
      exact Ends.mono (ihis (done ++ [i]) (by simp [hsplit]) hnext) (fun _ _ h => h₁.trans h)
        (fun _ _ h => h₁.trans h)

/-- Compiling a file puts elements behind the globals, item by item of the files it checks. -/
theorem fileWithin_filled (lib : Library) (n : Nat) (file : String) (p : Project) :
    Fills (Meets lib n file p) (fileWithin lib n file) p := by
  induction n generalizing file p with
  | zero => exact Ends.throw .refl
  | succ n ih =>
    refine Ends.bind (Ends.get ?_)
    split
    · exact Ends.pure .refl
    · next hv =>
      rw [Option.not_isSome_iff_eq_none] at hv
      refine (ofExcept_ends _).seq (fun _ _ h => by rw [h.1]; exact .refl) ?_
      rintro source p ⟨rfl, hl⟩
      refine whileActive_ends (Ends.bind (Ends.modify ?_))
      refine (Ends.and (imports_filled ih hv hl [] source.imports rfl rfl) .run).seq
        (fun _ _ h => h.1) ?_
      rintro _ q ⟨hq, hrun⟩
      have hcheck : ∀ udts, q.importedTypes file [] [] source.imports = .ok udts →
          Filled (Meets lib (n + 1) file p) p.memory.dataSegment
            (q.settled (q.checked file source udts)).memory.dataSegment := by
        intro udts hu
        have hverify := verify_filled file (q.storageWith udts) q.names source
        rw [dataSegment_storageWith] at hverify
        rw [settled, Tracker.dataSegment_closeScope]
        exact hq.trans (hverify.mono fun i s hr => ⟨source, _, .here hv hl hrun hu, hr⟩)
      refine check_ends.mono ?_ ?_
      · rintro _ _ ⟨udts, v, hu, _, rfl⟩
        exact hcheck udts hu
      · rintro _ _ (⟨rfl, _⟩ | ⟨udts, f, hu, _, _, rfl⟩)
        · exact hq
        · exact hcheck udts hu

/-- The item is checked in the session by one of the attempts to compile. -/
def MetBy (calls : List (Library × String)) (i : Item) (s : Session) : Prop :=
  ∃ before lib file after, calls = before ++ (lib, file) :: after ∧
    Meets lib lib.limit file (afterAll before) i s

theorem MetBy.body {calls : List (Library × String)} {i : Item} {s : Session}
    (h : MetBy calls i s) : s.body = none := by
  obtain ⟨_, _, _, _, _, hmeets⟩ := h
  exact hmeets.body

/-- All globals of a project were inserted by the attempts that were made. -/
theorem afterAll_filled (calls : List (Library × String)) :
    Filled (MetBy calls) [] (afterAll calls).memory.dataSegment := by
  -- Each attempt begins with what all attempts before it have left.
  induction calls using List.reverseRecOn with
  | nil => exact .refl
  | append_singleton calls c ih =>
    have hafter : afterAll (calls ++ [c]) = (afterAll calls).after c.1 c.2 := by
      simp [afterAll]
    have hidle : (afterAll calls).idle = afterAll calls := idle_of_active (afterAll_quiet calls).2
    have hbefore : Filled (MetBy (calls ++ [c])) [] (afterAll calls).memory.dataSegment := by
      refine ih.mono ?_
      rintro i s ⟨before, lib, file, after, rfl, hm⟩
      exact ⟨before, lib, file, after ++ [c], by simp, hm⟩
    have hlast : Fills (MetBy (calls ++ [c])) (compile c.1 c.2) (afterAll calls) := by
      refine Ends.bind (Ends.modify ?_)
      change Ends _ (afterAll calls).idle _ _
      rw [hidle]
      exact (fileWithin_filled c.1 c.1.limit c.2 (afterAll calls)).mono fun i s hm =>
        ⟨calls, c.1, c.2, [], rfl, hm⟩
    rw [hafter, after]
    split
    · next hr =>
      have hfilled := Ends.ok hlast hr
      exact hbefore.trans hfilled
    · next hr =>
      have hfilled := Ends.error hlast hr
      exact hbefore.trans hfilled

end Project

end StoragePlan
