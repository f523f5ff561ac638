import StoragePlan.Proofs.Insertions
import StoragePlan.Proofs.Moments
import StoragePlan.Proofs.Ownership

/-!
Storage is an address map. Whatever is compiled from whatever libraries, the globals fit into the
address space, and so their offsets are exact: each begins where the one before it ends, and together
they tile the addresses from zero up to the size of the data segment. The stack fits as well, at every
moment of the check of a function.
-/

namespace StoragePlan

namespace Project

theorem stack_storageWith (udts : List Udt) (p : Project) :
    (p.storageWith udts).stack = p.memory.stack := by
  rw [storageWith, Tracker.foldl_addUdt false]
  rfl

end Project

open Project in
/-- The check of a file begins with an empty stack. -/
theorem Starts.stack {lib : Library} {n : Nat} {file : String} {p : Project} {source : SourceFile}
    {s : Session} (h : Starts lib n file p source s) (hq : Quiet p) (ha : file ∉ p.active) :
    s.memory.stack = [] := by
  induction h with
  | @here n file p p' source udts hv hl hi hu =>
    obtain ⟨hw, _⟩ := walk hv ha hl (fun _ h => h) hi
    exact (stack_storageWith udts p').trans (hq.steps (Advances.steps hw)).stack
  | within hv hl hs hi hact _ ih =>
    obtain ⟨hw, _⟩ := walk hv ha hl (fun i h => by simp [hs, h]) hi
    exact ih (hq.steps (Advances.steps hw)) hact

/-- Storage is a sound address map after any attempts to compile any files of any libraries.

The globals are named and their names are all different. Each was inserted by the check of an item, at
a moment when the data segment was what stands before it now; a function takes no bytes, and a value
takes the exact bytes that its type had at that moment. All bytes together fit into the address space
and are the size of the data segment; each global lies behind the bytes of those before it, so no
address belongs to two of them, and each address below the size belongs to one. While a function of any
further file is checked, the stack fits into the address space too. -/
theorem globals_tile_addresses (calls : List (Library × String)) :
    let m := (Project.afterAll calls).memory
    ((m.dataSegment.map (·.id)).Nodup ∧ ∀ e ∈ m.dataSegment, e.id.isSome) ∧
    (∀ k e, m.dataSegment[k]? = some e →
      ∃ i s, Project.MetBy calls i s ∧ Inserts i s e ∧ s.memory.dataSegment = m.dataSegment.take k ∧
        Sized i s e) ∧
    bytesOf m.dataSegment ≤ maxStorage ∧ m.dataSize = bytesOf m.dataSegment ∧
    (∀ k : Nat, m.globals[k]? =
      m.dataSegment[k]?.map fun e => ⟨e, bytesOf (m.dataSegment.take k)⟩) ∧
    (∀ k k' address, Occupies m.globals k address → Occupies m.globals k' address → k = k') ∧
    (∀ address, (∃ k, Occupies m.globals k address) ↔ address < m.dataSize) ∧
    ∀ lib file source s₀ d s₁ s, Starts lib lib.limit file (.afterAll calls) source s₀ →
      Reaches (.file source) s₀ (.body d) s₁ → During d s₁ s →
      bytesOf s.memory.stack ≤ maxStorage ∧ s.memory.stackSize = bytesOf s.memory.stack := by
  intro m
  have hrecorded := Project.afterAll_recorded calls
  have hfilled := Project.afterAll_filled calls
  have hle : bytesOf m.dataSegment ≤ maxStorage := hfilled.bytesOf_le fun _ _ h => h.body
  have hword : bytesOf m.dataSegment ≤ wordLimit := Nat.le_trans hle maxStorage_le_wordLimit
  have hsize : m.dataSize = bytesOf m.dataSegment := totalSize_eq_bytesOf hle
  refine ⟨⟨hrecorded.distinct, fun e he => ?_⟩, fun k e hk => ?_, hle, hsize, fun k => ?_,
    fun k k' address => Occupies.unique hword, fun address => ?_, ?_⟩
  · obtain ⟨f, x, _, _, hid⟩ := hrecorded.owned e he
    simp [hid]
  · obtain ⟨i, s, hmet, hi, hds⟩ := hfilled.insertion hk
    exact ⟨i, s, hmet, hi, hds, (hi.stores hmet.body).sized⟩
  · rw [Tracker.globals, getElem?_place (by omega)]
    simp only [Nat.zero_add]
  · rw [hsize, Tracker.globals, occupied_iff (by omega)]
    omega
  · intro lib file source s₀ d s₁ s hs hr hd
    obtain ⟨hquiet, hactive⟩ := Project.afterAll_quiet calls
    have hstack : s₀.memory.stack = [] := hs.stack hquiet (by simp [hactive])
    have hfits₀ : s₀.memory.Fits := by simp [Tracker.Fits, hstack]
    obtain ⟨hleads, hbody⟩ := hr.leads hs.body
    have hfits : s.memory.Fits := hd.fits hbody (hleads.fits hfits₀)
    exact ⟨hfits, totalSize_eq_bytesOf hfits⟩

/-- A library whose only file fails at its last item. -/
def lastItemWrong : Library :=
  .ofTexts [("main", "type P \x7b x: u8, y: u16 \x7d var a: P[2]; fn f() \x7b \x7d var b: u8 = c;")]

/-- A library in which the same file has another text. -/
def textReplaced : Library :=
  .ofTexts [("main", "var z: u16; fn g(k: u32) \x7b var l: u8[3]; \x7d")]

/-- The globals of the attempt that failed stay, and those of the other text lie behind them; where the
body of `g` ends, the stack holds its parameter and its variable. -/
theorem globals_tile_addresses_textReplaced :
    let m := (Project.afterAll [(lastItemWrong, "main"), (textReplaced, "main")]).memory
    m.globals.map (fun p => (p.element.label, p.element.size, p.offset)) =
      [("a", 6, 0), ("f", 0, 6), ("z", 2, 6), ("g", 0, 8)] ∧
    (∀ address, (∃ k, Occupies m.globals k address) ↔ address < m.dataSize) ∧
    ∃ source s₀ d s₁ s,
      Starts textReplaced textReplaced.limit "main" (.afterAll [(lastItemWrong, "main")]) source
        s₀ ∧
      Reaches (.file source) s₀ (.body d) s₁ ∧ During d s₁ s ∧
      s.memory.stack.map (·.size) = [3, 4] ∧ bytesOf s.memory.stack ≤ maxStorage := by
  obtain ⟨_, _, _, _, _, _, htiles, _⟩ :=
    globals_tile_addresses [(lastItemWrong, "main"), (textReplaced, "main")]
  refine ⟨by decide +kernel, htiles, ?_⟩
  have hrun : (((Project.afterAll [(lastItemWrong, "main")]).begin? textReplaced 1 "main").bind
      fun b => (Task.follow [1, 0] (.file b.1) b.2).bind fun r =>
        match r.1 with
        | .body _ => Task.follow [0, 1] r.1 r.2
        | _ => none).any (fun r => r.2.memory.stack.map (·.size) == [3, 4]) = true := by
    decide +kernel
  obtain ⟨⟨task, s⟩, hr, hstack⟩ := (Option.any_eq_true _ _).mp hrun
  obtain ⟨⟨source, s₀⟩, hb, hr⟩ := Option.bind_eq_some_iff.mp hr
  obtain ⟨⟨body, s₁⟩, hf, hr⟩ := Option.bind_eq_some_iff.mp hr
  split at hr
  · next d hd =>
    obtain rfl : body = .body d := hd
    have hv : (Project.afterAll [(lastItemWrong, "main")]).verified? "main" = none := by
      decide +kernel
    have hstart : Starts textReplaced textReplaced.limit "main"
      (.afterAll [(lastItemWrong, "main")]) source s₀ := .of_begin? hv hb
    have hreach : Reaches (.file source) s₀ (.body d) s₁ := .of_follow hf
    have hduring : During d s₁ s := .tasks (.of_follow hr)
    obtain ⟨_, _, _, _, _, _, _, hfits⟩ := globals_tile_addresses [(lastItemWrong, "main")]
    exact ⟨source, s₀, d, s₁, s, hstart, hreach, hduring, eq_of_beq hstack,
      (hfits _ _ _ _ _ _ _ hstart hreach hduring).1⟩
  · cases hr

end StoragePlan
