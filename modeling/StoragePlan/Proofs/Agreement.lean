import StoragePlan.Proofs.Booked

/-!
Names and storage agree. In every session in which a part of a file is checked while a file is
compiled on a new project, whatever a name means in the symbol tables is what storage holds under that
name, declared by the same declaration.
-/

namespace StoragePlan

open Compile in
/-- Compiling a file from a project, at most `n` imports deep, leads to the check of a source from a
session. -/
inductive Starts (lib : Library) : Nat → String → Project → SourceFile → Session → Prop where
  | here {n : Nat} {file : String} {p p' : Project} {source : SourceFile} {udts : List Udt}
    (hv : p.verified? file = none) (hl : Project.load lib file = .ok source)
    (hi : imports (fileWithin lib n) file source.imports (p.entered file) = .ok () p')
    (hu : p'.importedTypes file [] [] source.imports = .ok udts) :
    Starts lib (n + 1) file p source (.start file (p'.storageWith udts) p'.names)
  | within {n : Nat} {file : String} {p p' : Project} {source other : SourceFile}
    {before after : List Import} {i : Import} {s : Session}
    (hv : p.verified? file = none) (hl : Project.load lib file = .ok source)
    (hs : source.imports = before ++ i :: after)
    (hi : imports (fileWithin lib n) file before (p.entered file) = .ok () p')
    (ha : i.file ∉ p'.active) (h : Starts lib n i.file p' other s) :
    Starts lib (n + 1) file p other s

/-- Where the check of a file itself begins when it is compiled, at most `n + 1` imports deep. -/
def Project.begin? (lib : Library) (n : Nat) (file : String) (p : Project) :
    Option (SourceFile × Session) :=
  match load lib file with
  | .error _ => none
  | .ok source =>
    match Compile.imports (Compile.fileWithin lib n) file source.imports (p.entered file) with
    | .error _ _ => none
    | .ok _ p' =>
      match p'.importedTypes file [] [] source.imports with
      | .error _ => none
      | .ok udts => some (source, .start file (p'.storageWith udts) p'.names)

namespace Starts

open Project

variable {lib : Library} {n : Nat} {file : String} {p : Project} {source : SourceFile} {s : Session}

theorem of_begin? (hv : p.verified? file = none) (h : p.begin? lib n file = some (source, s)) :
    Starts lib (n + 1) file p source s := by
  unfold begin? at h
  split at h
  · cases h
  · next hl =>
    split at h
    · cases h
    · next hi =>
      split at h
      · cases h
      · next hu =>
        cases h
        exact .here hv hl hi hu

/-- The imports before some import are verified and linked in turn. -/
theorem walk {p' : Project} {is : List Import} (hv : p.verified? file = none)
    (ha : file ∉ p.active) (hl : load lib file = .ok source)
    (his : ∀ i ∈ is, i ∈ source.imports)
    (hi : Compile.imports (Compile.fileWithin lib n) file is (p.entered file) = .ok () p') :
    Advances lib p p' ∧ p'.active = p.active ++ [file] ∧
      ∀ i ∈ is, (p'.verified? i.file).isSome ∧ i.file ∈ p'.importsOf file := by
  have ht : ((p.entered file).names.table? file).isSome := by
    simp [entered, Registry.table?_addFile]
  have hlast : (p.entered file).active.getLast? = some file := by simp [entered]
  obtain ⟨h, hact, himports⟩ :=
    (imports_ends (fun _ _ => fileWithin_walks lib n) hl is his hlast ht).ok hi
  exact ⟨.head (.enter hv ha) h, hact, himports⟩

/-- Every check of a file begins in a coherent session outside of functions. -/
theorem coherent (h : Starts lib n file p source s) {g : List (String × Binding)}
    (hb : Booked lib g p) (ha : file ∉ p.active) : ∃ g, Coherent ⟨g, []⟩ s ∧ s.body = none := by
  induction h generalizing g with
  | @here n file p p' source udts hv hl hi hu =>
    obtain ⟨hw, hact, himports⟩ := walk hv ha hl (fun _ h => h) hi
    obtain ⟨g', hb'⟩ := hb.advances hw
    have hr : Ready lib file source udts p' :=
      ⟨by simp [hact], hl, fun i hi => (himports i hi).1, fun i hi => (himports i hi).2, hu⟩
    exact ⟨g', hb'.start hr, rfl⟩
  | within hv hl hs hi hact _ ih =>
    obtain ⟨hw, _⟩ := walk hv ha hl (fun i h => by simp [hs, h]) hi
    obtain ⟨g', hb'⟩ := hb.advances hw
    exact ih hb' hact

end Starts

/-- What names mean is what storage holds. While a file is compiled on a new project, every session in
which an expression, a statement or any other part of a file is checked shows one ledger of
declarations, and for every name: a variable or constant finds the element of its own declaration,
with the type id of its handle; a function finds the element of its own declaration, with the type ids
of its handles; a type is active with the same fields. No two active types share a name. -/
theorem names_agree_with_storage (lib : Library) (file : String) {source : SourceFile}
    {s₀ s : Session} {task : Task} (hs : Starts lib lib.limit file .empty source s₀)
    (hr : Reaches (.file source) s₀ task s) :
    ∃ l : Ledger, l.Describes s ∧
      (∀ id x h, s.names.lookup? s.file id = some x → x.valueType? = some h →
        ∃ b e typeId, l.Has b ∧ b.symbol = x ∧ b.element? = some e ∧
          (s.memory.find? id).map (·.element) = some e ∧
          e.content = .value typeId ∧ s.names.types.typeId? h = some typeId) ∧
      (∀ id x args returns, s.names.lookup? s.file id = some x → x.kind = .function args returns →
        ∃ b e sig, l.Has b ∧ b.symbol = x ∧ b.element? = some e ∧
          (s.memory.find? id).map (·.element) = some e ∧ e.content = .function sig ∧
          args.map (fun a => s.names.types.typeId? a.type) = sig.params.map (some ·.typeId) ∧
          returns.map s.names.types.typeId? = sig.returns.map some) ∧
      (∀ id x fields, s.names.lookup? s.file id = some x → x.kind = .udt fields →
        ∃ u, s.memory.findUdt? id = some u ∧
          fields.map (fun f => (f.id, s.names.types.typeId? f.type)) =
            u.fields.map (fun m => (m.id, some m.typeId))) ∧
      (s.memory.udts.map (·.id)).Nodup := by
  obtain ⟨g, hc₀, hbody⟩ := hs.coherent (Project.booked_empty lib) (by simp [Project.empty])
  obtain ⟨l, hc, _⟩ := hr.kept hbody ⟨⟨g, []⟩, hc₀, by simp [hbody]⟩
  refine ⟨l, hc.toDescribes, ?_, ?_, ?_, hc.nodup⟩
  · intro id x h hx hh
    obtain ⟨b, hb, rfl, helement, _⟩ := hc.binding hx
    obtain ⟨e, he, typeId, size, v, rfl, hid⟩ := (hc.sound b hb).holds hh
    exact ⟨b, _, typeId, hb, rfl, he, helement _ he, rfl, hid⟩
  · intro id x args returns hx hk
    obtain ⟨b, hb, rfl, helement, _⟩ := hc.binding hx
    obtain ⟨e, he, sig, rfl, _, hargs, hret⟩ := (hc.sound b hb).calls hk
    refine ⟨b, _, sig, hb, rfl, he, helement _ he, rfl, ?_, hret⟩
    simpa [TypedName.spelled, Member.spelled, Function.comp_def] using
      congrArg (List.map Prod.snd) hargs
  · intro id x fields hx hk
    obtain ⟨b, hb, rfl, _, hudt⟩ := hc.binding hx
    obtain ⟨u, hu, _, hfields⟩ := (hc.sound b hb).shapes hk
    exact ⟨u, hudt u hu, hfields⟩

/-- A library in which one file uses a type of another. -/
def sharedType : Library :=
  .ofTexts [("main", "import \"lib\"; fn f(p: P) \x7b p.x; \x7d"), ("lib", "export type P \x7b x: u8 \x7d")]

/-- Where the body of `f` is checked, its parameter finds an element of the imported type. -/
theorem names_agree_with_storage_sharedType :
    ∃ source s₀ task s, Starts sharedType sharedType.limit "main" .empty source s₀ ∧
      Reaches (.file source) s₀ task s ∧
      ∃ e, (s.memory.find? "p").map (·.element) = some e ∧ e.content = .value "P" := by
  have hrun : ((Project.empty.begin? sharedType 2 "main").bind fun b =>
      (Task.follow [1, 0, 0, 0, 0, 0] (.file b.1) b.2)).any (fun r =>
        ((r.2.names.lookup? r.2.file "p").bind (·.valueType?)).bind r.2.names.types.typeId? ==
          some "P") = true := by decide +kernel
  rw [Option.any_eq_true] at hrun
  obtain ⟨⟨task, s⟩, hr, hp⟩ := hrun
  obtain ⟨⟨source, s₀⟩, hb, hf⟩ := Option.bind_eq_some_iff.mp hr
  obtain ⟨h, hx, hid⟩ := Option.bind_eq_some_iff.mp (eq_of_beq hp)
  obtain ⟨x, hl, hv⟩ := Option.bind_eq_some_iff.mp hx
  have hstart : Starts sharedType sharedType.limit "main" .empty source s₀ := .of_begin? rfl hb
  have hreach : Reaches (.file source) s₀ task s := .of_follow hf
  obtain ⟨l, _, hvalues, _⟩ := names_agree_with_storage sharedType "main" hstart hreach
  obtain ⟨b, e, typeId, _, _, _, he, hc, ht⟩ := hvalues "p" x h hl hv
  rw [hid] at ht
  cases ht
  exact ⟨source, s₀, task, s, hstart, hreach, e, he, hc⟩

end StoragePlan
