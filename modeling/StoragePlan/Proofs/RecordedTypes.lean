import StoragePlan.Proofs.Accretion
import StoragePlan.Proofs.Insertions
import StoragePlan.Proofs.Promises
import StoragePlan.Proofs.Visits

/-!
Recorded types are complete and follow the rules. The check of an expression resolves names through the
symbol tables and looks at arguments; the rules in `Expr.typeIn` only read storage. Both give the same
type, and the entry that the check records for a node stands for it, for good.
-/

namespace StoragePlan

/-! ### What is looked up -/

namespace Check

variable {s s' : Session} {e : Expr} {t : ValueType}

theorem nameType_ends (token : Token) :
    Ends (nameType token) s (fun t s' => s' = s ∧ ∃ id x, nameOf token = .ok id ∧
        s.names.lookup? s.file id = some x ∧ x.isValue = true ∧ t = ValueType.ofName id s.memory)
      (fun _ _ => True) := by
  refine (ofExcept_ends _).seq (fun _ _ _ => trivial) ?_
  rintro id s ⟨rfl, hid⟩
  refine (lookup?_ends id).seq (fun _ _ _ => trivial) ?_
  rintro o s ⟨rfl, ho⟩
  split
  · exact Ends.throw trivial
  · next x =>
    split
    · next hx =>
      refine Ends.bind (Ends.get ?_)
      dsimp only
      split
      · exact Ends.pure ⟨rfl, id, x, hid, ho.symm, hx, rfl⟩
      · exact Ends.throw trivial
    · exact Ends.throw trivial

theorem fieldType_ends (left : ValueType) (op : Token) (right : Expr) :
    Ends (fieldType left op right) s (fun t s' => s' = s ∧ ∃ id field, left = .udt id ∧
        fieldOf op right = .ok field ∧ (s.memory.findField? id field).isSome = true ∧
        t = left.ofField field s.memory)
      (fun _ _ => True) := by
  refine (ofExcept_ends _).seq (fun _ _ _ => trivial) ?_
  rintro field s ⟨rfl, hf⟩
  refine Ends.bind (Ends.get ?_)
  split
  · next id =>
    dsimp only
    split
    · next hsome => exact Ends.pure ⟨rfl, id, field, rfl, hf, hsome, rfl⟩
    · exact Ends.throw trivial
  · exact Ends.throw trivial

theorem parametersOf_ends (callee : Token) (id : String) :
    Ends (parametersOf callee id) s (fun params s' => s' = s ∧ ∃ x returns,
        s.names.lookup? s.file id = some x ∧ x.kind = .function params returns)
      (fun _ _ => True) := by
  refine (lookup?_ends id).seq (fun _ _ _ => trivial) ?_
  rintro o s ⟨rfl, ho⟩
  split
  · exact Ends.throw trivial
  · next x =>
    split
    · next params returns hk => exact Ends.pure ⟨rfl, x, returns, ho.symm, hk⟩
    · exact Ends.throw trivial

theorem callType_ends (callee : Token) (id : String) :
    Ends (callType callee id) s (fun t s' => s' = s ∧ t = ValueType.ofCall id s.memory)
      (fun _ _ => True) := by
  refine Ends.bind (Ends.get ?_)
  dsimp only
  split
  · exact Ends.pure ⟨rfl, rfl⟩
  · exact Ends.throw trivial

/-- A value is the type of its expression. -/
theorem expr_of_value (h : value e s = .ok t s') : expr e s = .ok t s' := by
  obtain ⟨t₁, s₁, hexpr, hvalue⟩ := bind_eq_ok h
  unfold requireValue at hvalue
  split at hvalue
  · cases hvalue
  · cases hvalue
    exact hexpr

theorem memory_of_value (h : value e s = .ok t s') : s'.memory = s.memory :=
  ((notes_value e s).ok h).memory_eq

/-- An answer is recorded as it is. -/
theorem typed_of_expr (h : expr e s = .ok t s') : ∃ s₁, typed e s = .ok t s₁ := by
  rw [expr_eq] at h
  obtain ⟨t₁, s₁, htyped, hrecord⟩ := bind_eq_ok h
  have hsame : Ends (record e.id t₁) s₁ (fun t _ => t = t₁) (fun _ _ => True) := by
    refine (intern?_ends t₁).seq (fun _ _ _ => trivial) ?_
    rintro (_ | h) s₂ _
    · refine Ends.bind (Ends.pure (Ends.pure ?_))
      rfl
    · refine Ends.bind (Ends.modify (Ends.pure ?_))
      rfl
  exact ⟨s₁, hsame.ok hrecord ▸ htyped⟩

/-! ### Two readings of a type -/

theorem ofExcept_eq_ok {α : Type} {y : Except SemanticFault α} {a : α} (h : ofExcept y s = .ok a s') :
    s' = s ∧ y = .ok a := (ofExcept_ends y).ok h

/-- A call that is right names a function, and has the type that storage has for it. -/
theorem call_of_typed {id : Nat} {callee : Token} {args : List Expr}
    (h : typed (.call id callee args) s = .ok t s') : ∃ name params x returns,
      nameOf callee = .ok name ∧ s.names.lookup? s.file name = some x ∧
      x.kind = .function params returns ∧ t = ValueType.ofCall name s.memory := by
  obtain ⟨name, s₁, h₁, hrest⟩ := bind_eq_ok h
  obtain ⟨hs₁, hname⟩ := ofExcept_eq_ok h₁
  obtain ⟨params, s₂, h₂, hrest⟩ := bind_eq_ok hrest
  obtain ⟨hs₂, x, returns, hx, hk⟩ := (parametersOf_ends callee name).ok h₂
  split at hrest
  · obtain ⟨_, s₃, h₃, h₄⟩ := bind_eq_ok hrest
    obtain ⟨_, ht⟩ := (callType_ends callee name).ok h₄
    have hm := ((notes_arguments name 1 args params s₂).ok h₃).memory_eq
    rw [hm, hs₂, hs₁] at ht
    rw [hs₁] at hx
    exact ⟨name, params, x, returns, hname, hx, hk, ht⟩
  · cases hrest

/-- The type that the check finds is the one that storage shows. -/
theorem typeIn_of_expr : ∀ (e : Expr) {s s' : Session} {t : ValueType},
    expr e s = .ok t s' → e.typeIn s.memory = .ok t
  | .literal id token, s, s', t, h => by
    obtain ⟨s₁, h⟩ := typed_of_expr h
    rw [Expr.typeIn]
    exact (ofExcept_eq_ok h).2
  | .ident id token, s, s', t, h => by
    obtain ⟨s₁, h⟩ := typed_of_expr h
    obtain ⟨_, id, x, hid, _, _, rfl⟩ := (nameType_ends token).ok h
    rw [Expr.typeIn, hid]
    rfl
  | .unary id op operand, s, s', t, h => by
    obtain ⟨s₁, h⟩ := typed_of_expr h
    obtain ⟨t₁, s₂, hvalue, h⟩ := bind_eq_ok h
    rw [Expr.typeIn, typeIn_of_expr operand (expr_of_value hvalue)]
    exact (ofExcept_eq_ok h).2
  | .binary id left op right, s, s', t, h => by
    obtain ⟨s₁, h⟩ := typed_of_expr h
    obtain ⟨l, s₂, hl, h⟩ := bind_eq_ok h
    have hm := memory_of_value hl
    rw [Expr.typeIn, typeIn_of_expr left (expr_of_value hl)]
    by_cases ha : Expr.isAccess op = true
    · rw [if_pos ha] at h
      obtain ⟨_, id, field, _, hf, _, rfl⟩ := (fieldType_ends l op right).ok h
      simp only [bind, Except.bind, ha, if_true, hf, hm]
      rfl
    · rw [if_neg ha] at h
      obtain ⟨r, s₃, hr, h⟩ := bind_eq_ok h
      have hright := typeIn_of_expr right (expr_of_value hr)
      rw [hm] at hright
      simp only [bind, Except.bind, ha, hright]
      exact (ofExcept_eq_ok h).2
  | .call id callee args, s, s', t, h => by
    obtain ⟨s₁, htyped⟩ := typed_of_expr h
    obtain ⟨name, params, x, returns, hname, _, _, rfl⟩ := call_of_typed htyped
    rw [Expr.typeIn, hname]
    rfl
  | .index id target bracket subscript, s, s', t, h => by
    obtain ⟨s₁, h⟩ := typed_of_expr h
    obtain ⟨l, s₂, hl, h⟩ := bind_eq_ok h
    obtain ⟨i, s₃, hi, h⟩ := bind_eq_ok h
    have hsub := typeIn_of_expr subscript (expr_of_value hi)
    rw [memory_of_value hl] at hsub
    rw [Expr.typeIn, typeIn_of_expr target (expr_of_value hl)]
    simp only [bind, Except.bind, hsub]
    exact (ofExcept_eq_ok h).2

end Check

/-! ### Calls without a value -/

/-- The expression calls a function that returns nothing. -/
def Expr.CallsProcedure (s : Session) : Expr → Prop
  | .call _ callee _ => ∃ name x params, nameOf callee = .ok name ∧
      s.names.lookup? s.file name = some x ∧ x.kind = .function params none
  | _ => False

namespace Check

variable {s s' : Session} {e : Expr} {t : ValueType}

/-- Operands have types that can be read back. -/
theorem plain_of_value (hl : s.Legible) (h : value e s = .ok t s') : t.Plain ∧ s'.Legible := by
  obtain ⟨ht, _, _, hacc⟩ := (tells_value e s hl).ok h
  exact ⟨ht, hacc.legible⟩

/-- A variable or constant in sight has a type. -/
theorem Kept.ofName_plain (hk : Kept s) (hl : s.Legible) {id : String} {x : Symbol}
    (hx : s.names.lookup? s.file id = some x) (hv : x.isValue = true) :
    (ValueType.ofName id s.memory).Plain := by
  obtain ⟨l, hc, _⟩ := hk
  obtain ⟨b, hb, rfl, helement, _⟩ := hc.binding hx
  obtain ⟨h, hh⟩ := Option.isSome_iff_exists.mp hv
  obtain ⟨e, he, typeId, size, v, rfl, _⟩ := (hc.sound b hb).holds hh
  obtain ⟨l, hf, hle⟩ := Option.map_eq_some_iff.mp (helement _ he)
  have hlegible := hl.memory.find? hf
  rw [hle] at hlegible
  have hcontent : s.memory.content? id = some (.value typeId) := by
    rw [Tracker.content?, hf, Option.map_some, hle]
    rfl
  rw [ValueType.ofName, hcontent]
  exact hlegible

/-- A function in sight has a type if it returns something. -/
theorem Kept.ofCall_eq_undefined (hk : Kept s) (hl : s.Legible) {id : String} {x : Symbol}
    {params : List TypedName} {returns : Option Handle}
    (hx : s.names.lookup? s.file id = some x) (hkind : x.kind = .function params returns) :
    ValueType.ofCall id s.memory = .undefined ↔ returns = none := by
  obtain ⟨l, hc, _⟩ := hk
  obtain ⟨b, hb, rfl, helement, _⟩ := hc.binding hx
  obtain ⟨e, he, sig, rfl, _, _, hreturns⟩ := (hc.sound b hb).calls hkind
  obtain ⟨l, hf, hle⟩ := Option.map_eq_some_iff.mp (helement _ he)
  have hlegible := hl.memory.find? hf
  rw [hle] at hlegible
  have hcontent : s.memory.content? id = some (.function sig) := by
    rw [Tracker.content?, hf, Option.map_some, hle]
    rfl
  rw [ValueType.ofCall, hcontent]
  cases hr : sig.returns with
  | none =>
    have hnone : returns = none := by simpa [hr] using hreturns
    simp [hr, hnone]
  | some typeId =>
    have hplain : (ValueType.ofId typeId).Plain := hlegible typeId hr
    have hsome : returns ≠ none := by
      rintro rfl
      simp [hr] at hreturns
    simp [hr, hplain.ne_undefined, hsome]

/-- Only a call of a function that returns nothing is without a type. -/
theorem undefined_iff_of_expr (hl : s.Legible) (hk : Kept s) (h : expr e s = .ok t s') :
    t = .undefined ↔ e.CallsProcedure s := by
  obtain ⟨s₁, h⟩ := typed_of_expr h
  have hplain : ∀ {e : Expr}, t.Plain → ¬ e.CallsProcedure s →
      (t = .undefined ↔ e.CallsProcedure s) := fun ht he =>
    ⟨fun hu => absurd hu ht.ne_undefined, fun hc => absurd hc he⟩
  cases e with
  | literal id token => exact hplain (ValueType.ofLiteral_plain (ofExcept_eq_ok h).2) fun hc => hc
  | ident id token =>
    obtain ⟨_, id, x, _, hx, hv, rfl⟩ := (nameType_ends token).ok h
    exact hplain (hk.ofName_plain hl hx hv) fun hc => hc
  | unary id op operand =>
    obtain ⟨t₁, s₂, hvalue, h⟩ := bind_eq_ok h
    have ht := (plain_of_value hl hvalue).1
    exact hplain (ValueType.ofUnary_plain ht (ofExcept_eq_ok h).2) fun hc => hc
  | binary id left op right =>
    refine hplain ?_ fun hc => hc
    obtain ⟨l, s₂, hleft, h⟩ := bind_eq_ok h
    obtain ⟨hlp, hl₂⟩ := plain_of_value hl hleft
    split at h
    · obtain ⟨_, id, field, rfl, _, hsome, rfl⟩ := (fieldType_ends l op right).ok h
      exact ValueType.ofField_plain hl₂.memory hsome
    · obtain ⟨r, s₃, hright, h⟩ := bind_eq_ok h
      exact ValueType.ofBinary_plain hlp (plain_of_value hl₂ hright).1 (ofExcept_eq_ok h).2
  | call id callee args =>
    obtain ⟨name, params, x, returns, hname, hx, hkind, rfl⟩ := call_of_typed h
    rw [hk.ofCall_eq_undefined hl hx hkind]
    constructor
    · rintro rfl
      exact ⟨name, x, params, hname, hx, hkind⟩
    · rintro ⟨name', x', params', hname', hx', hkind'⟩
      cases hname.symm.trans hname'
      cases hx.symm.trans hx'
      cases hkind.symm.trans hkind'
      rfl
  | index id target bracket subscript =>
    obtain ⟨l, s₂, hl₂, h⟩ := bind_eq_ok h
    obtain ⟨i, s₃, _, h⟩ := bind_eq_ok h
    exact hplain (ValueType.ofIndex_plain (plain_of_value hl hl₂).1 (ofExcept_eq_ok h).2) fun hc => hc

end Check

/-! ### Projects -/

namespace Project

open Compile

variable {lib : Library} {p q : Project} {file : String} {source : SourceFile} {udts : List Udt}

/-- Every type that storage, the table of types or a verified file mentions can be read back. -/
structure Legible (p : Project) : Prop where
  memory : p.memory.Legible
  types : p.names.types.Tidy
  verified : ∀ v ∈ p.verified, ∀ u ∈ v.udts, u.Legible

theorem legible_empty : Legible empty :=
  ⟨Tracker.legible_empty, TypeTable.tidy_empty, by simp [empty]⟩

/-- The check of a file begins in a legible session. -/
theorem Legible.start (h : Legible p) (hu : p.importedTypes file [] [] source.imports = .ok udts) :
    (Session.start file (p.storageWith udts) p.names).Legible where
  memory := by
    refine h.memory.openScope.addUdts fun u hm => ?_
    obtain ⟨visited, hgather, _⟩ := importedTypes_gathered gathered_nil hu
    obtain ⟨f, _, v, hv, huv⟩ := (hgather.types u).mp hm
    exact h.verified v (List.mem_of_find?_eq_some hv) u huv
  types := (Registry.types_addFile p.names file).symm ▸ h.types
  udts u hm := by cases hm

/-- The check of a sound file leaves storage and types legible, right or not. -/
theorem Legible.settled (h : Legible p) (hl : load lib file = .ok source)
    (hu : p.importedTypes file [] [] source.imports = .ok udts) :
    Legible (p.settled (p.checked file source udts)) ∧
      ∀ v, (p.checked file source udts).result = .ok v → ∀ u ∈ v.udts, u.Legible := by
  have hends := Check.tells_file (load_sound hl) _ (h.start hu)
  cases hrun : Check.file source (.start file (p.storageWith udts) p.names) with
  | ok a s =>
    obtain ⟨_, _, _, hacc⟩ := hends.ok hrun
    rw [checked, verify_of_ok hrun]
    refine ⟨⟨hacc.legible.memory.closeScope, hacc.legible.types, h.verified⟩, fun v hv => ?_⟩
    cases hv
    exact hacc.legible.udts
  | error f s =>
    have hs := hends.error hrun
    rw [checked, verify_of_error hrun]
    exact ⟨⟨(hs.memory.closeTo _).closeScope, hs.types, h.verified⟩, fun v hv => by cases hv⟩

theorem Legible.step (h : Legible p) (hs : Step lib p q) : Legible q := by
  rcases hs with hs | hs
  · cases hs with
    | enter hv ha => exact ⟨h.memory, (Registry.types_addFile p.names _).symm ▸ h.types, h.verified⟩
    | link ha hl hi hv => exact ⟨h.memory, h.types, h.verified⟩
    | finish hr hv =>
      obtain ⟨hset, hnew⟩ := h.settled hr.loaded hr.types
      refine ⟨hset.memory, hset.types, fun w hw => ?_⟩
      rcases List.mem_append.mp hw with hw | hw
      · exact h.verified w hw
      · rw [List.mem_singleton.mp hw]
        exact hnew _ hv
  · cases hs with
    | fail hr hf =>
      have hset := (h.settled hr.loaded hr.types).1
      exact ⟨hset.memory, hset.types, hset.verified⟩
    | leave => exact ⟨h.memory, h.types, h.verified⟩

theorem Legible.steps (h : Legible p) (hs : Steps lib p q) : Legible q :=
  hs.keep (fun _ _ hp hs => hp.step hs) h

theorem afterAll_legible (calls : List (Library × String)) : Legible (afterAll calls) :=
  afterAll_keep legible_empty (fun lib file p h =>
    (show Legible p.idle from ⟨h.memory, h.types, h.verified⟩).steps (after_steps lib file p).1) calls

end Project

namespace Starts

open Project

variable {lib : Library} {n : Nat} {file : String} {p : Project} {source : SourceFile}
  {s s₁ : Session}

/-- What is checked was read from a text. -/
theorem loaded (h : Starts lib n file p source s) :
    ∃ f, Project.load lib f = .ok source ∧ s.file = f ∧ s.types = [] := by
  induction h with
  | here _ hl _ _ => exact ⟨_, hl, rfl, rfl⟩
  | within _ _ _ _ _ _ ih => exact ih

theorem legible (h : Starts lib n file p source s) (hp : Legible p) (ha : file ∉ p.active) :
    s.Legible := by
  induction h with
  | here hv hl hi hu =>
    obtain ⟨hw, _⟩ := walk hv ha hl (fun _ h => h) hi
    exact (hp.steps (Advances.steps hw)).start hu
  | within hv hl hs hi hact _ ih =>
    obtain ⟨hw, _⟩ := walk hv ha hl (fun i h => by simp [hs, h]) hi
    exact ih (hp.steps (Advances.steps hw)) hact

end Starts

/-! ### Accepted files -/

/-- What is kept of a file whose check has led from `s` to `s'`. -/
def Session.verdict (s s' : Session) : VerifiedFile := ⟨s.file, s'.frames, s'.types, s'.udts⟩

namespace Project

open Compile

variable {lib : Library} {n : Nat} {p q : Project} {file : String} {source : SourceFile}
  {udts : List Udt} {v : VerifiedFile} {types : TypeTable}

/-- The file is verified, and the table of types has only grown since. -/
structure Holds (v : VerifiedFile) (types : TypeTable) (p : Project) : Prop where
  verified : p.verified? v.file = some v
  types : types.Grown p.names.types

theorem Holds.later (h : Holds v types p) (hl : Later p q)
    (ht : p.names.types.Grown q.names.types) : Holds v types q :=
  ⟨hl.verified? h.verified, h.types.trans ht⟩

theorem Holds.settled (h : Holds v types p) :
    Holds v types (p.settled (p.checked file source udts)) := by
  obtain ⟨_, _, _, hl, _⟩ := settled_left p file source udts
  exact h.later later_settled hl.types

theorem Holds.step (h : Holds v types p) (hs : Step lib p q) : Holds v types q := by
  rcases hs with hs | hs
  · cases hs with
    | enter hv ha => exact h.later later_entered (Registry.types_addFile p.names _ ▸ .refl _)
    | link ha hl hi hv => exact h.later (later_linked _) (.refl _)
    | finish hr hv =>
      exact (h.settled.later later_left (.refl _)).later (later_accepted _) (.refl _)
  · cases hs with
    | fail hr hf => exact h.settled.later later_left (.refl _)
    | leave => exact h.later later_left (.refl _)

theorem Holds.steps (h : Holds v types p) (hs : Steps lib p q) : Holds v types q :=
  hs.keep (fun _ _ hp hs => hp.step hs) h

/-- However the step ends, the file is verified then. -/
def Secures (v : VerifiedFile) (types : TypeTable) (x : Compile Unit) (p : Project) : Prop :=
  Ends x p (fun _ q => Holds v types q) (fun _ q => Holds v types q)

theorem Secures.bind {x : Compile Unit} {f : Unit → Compile Unit} (hx : Secures v types x p)
    (hf : ∀ u q, Holds v types q → Secures v types (f u) q) : Secures v types (x >>= f) p :=
  hx.seq (fun _ _ hq => hq) hf

/-- An import during which the file is verified, and the imports after it. -/
theorem Secures.imports_cons {i : Import} {is : List Import} (ha : i.file ∉ p.active)
    (h : Secures v types (fileWithin lib n i.file) p)
    (hrest : ∀ q, Holds v types q → Secures v types (imports (fileWithin lib n) file is) q) :
    Secures v types (imports (fileWithin lib n) file (i :: is)) p := by
  have hsub : Secures v types (wrapping file i (fileWithin lib n i.file)) p := wrapping_ends h
  refine Ends.bind (Ends.get ?_)
  dsimp only
  rw [if_neg (by simpa using ha)]
  refine hsub.bind fun _ q hq => Ends.bind (Ends.modify ?_)
  exact hrest _ (hq.later (later_linked i.file) (.refl _))

theorem Holds.imports (h : Holds v types p) (is : List Import) :
    Secures v types (imports (fileWithin lib n) file is) p := by
  induction is generalizing p with
  | nil => exact Ends.pure h
  | cons i is ih =>
    by_cases ha : i.file ∈ p.active
    · refine Ends.bind (Ends.get ?_)
      dsimp only
      rw [if_pos (by simpa using ha)]
      exact Ends.throw h
    · have hwalk : Walks lib i.file (fileWithin lib n i.file) p := fileWithin_walks lib n ha
      refine Secures.imports_cons ha ?_ fun q hq => ih hq
      exact hwalk.mono (fun _ _ hq => h.steps (Advances.steps hq.1)) fun _ _ hq => h.steps hq.1

theorem Holds.check (h : Holds v types p) : Secures v types (check file source) p := by
  refine check_ends.mono ?_ ?_
  · rintro _ _ ⟨udts, w, _, _, rfl⟩
    exact h.settled.later (later_accepted w) (.refl _)
  · rintro _ _ (⟨rfl, _⟩ | ⟨udts, f, _, _, _, rfl⟩)
    · exact h
    · exact h.settled

/-- Attempts to compile keep what is verified. -/
theorem Holds.afterAll (h : Holds v types p) (calls : List (Library × String)) :
    Holds v types (calls.foldl (fun p c => p.after c.1 c.2) p) := by
  induction calls generalizing p with
  | nil => exact h
  | cons c calls ih =>
    have hidle : Holds v types p.idle := ⟨h.verified, h.types⟩
    exact ih (hidle.steps (after_steps c.1 c.2 p).1)

theorem verified?_accepted_self (h : p.verified? v.file = none) :
    (p.accepted v).verified? v.file = some v := by
  rw [verified?_accepted, h, Option.none_or, if_pos rfl]

/-- The check of a file that goes well makes it verified. -/
theorem check_secures {s : Session} (hv : p.verified? file = none)
    (hu : p.importedTypes file [] [] source.imports = .ok udts)
    (hc : Check.file source (.start file (p.storageWith udts) p.names) = .ok () s) :
    Secures (Session.verdict (.start file (p.storageWith udts) p.names) s) s.names.types
      (check file source) p := by
  have hchecked : p.checked file source udts =
      ⟨.ok (Session.verdict (.start file (p.storageWith udts) p.names) s), s.memory, s.names⟩ :=
    verify_of_ok hc
  refine check_ends.mono ?_ ?_
  · rintro _ _ ⟨udts', v, hu', hresult, rfl⟩
    cases hu.symm.trans hu'
    rw [hchecked] at hresult ⊢
    cases hresult
    exact ⟨verified?_accepted_self hv, .refl _⟩
  · rintro _ _ (⟨_, hu'⟩ | ⟨udts', f, hu', hresult, _⟩)
    · cases hu.symm.trans hu'
    · cases hu.symm.trans hu'
      rw [hchecked] at hresult
      cases hresult

/-- The compilation of a file that is not verified yet: its imports and its check. -/
theorem Secures.fileWithin (hv : p.verified? file = none) (hl : load lib file = .ok source)
    (h : Secures v types (do imports (fileWithin lib n) file source.imports; check file source)
      (p.entered file)) : Secures v types (Compile.fileWithin lib (n + 1) file) p := by
  refine Ends.bind (Ends.get ?_)
  rw [if_neg (by simp [hv]), hl]
  refine Ends.bind (Ends.pure (whileActive_ends (Ends.bind (Ends.modify ?_))))
  exact h.mono (fun _ _ hq => hq.later later_left (.refl _)) fun _ _ hq => hq.later later_left (.refl _)

end Project

open Project Compile in
/-- A file whose check is reached and goes well is verified when the compilation is over, whether that
goes well or not. -/
theorem Starts.secures {lib : Library} {n : Nat} {file : String} {p : Project} {source : SourceFile}
    {s s' : Session} (h : Starts lib n file p source s) (hc : Check.file source s = .ok () s')
    (ha : file ∉ p.active) (hp : Pending p) :
    Secures (s.verdict s') s'.names.types (fileWithin lib n file) p := by
  induction h with
  | @here n file p p' source udts hv hl hi hu =>
    obtain ⟨hw, hact, _⟩ := walk hv ha hl (fun _ h => h) hi
    have hnone : p'.verified? file = none :=
      (hp.steps (Advances.steps hw)).unverified file (by simp [hact])
    apply Secures.fileWithin hv hl
    refine Ends.run.seq (fun e q hq => by cases hi.symm.trans hq) ?_
    rintro _ q hq
    cases hi.symm.trans hq
    exact check_secures hnone hu hc
  | @within n file p p' source other before after i s hv hl hs hi hact hstarts ih =>
    obtain ⟨hw, hactive, _⟩ := walk hv ha hl (fun j h => by simp [hs, h]) hi
    apply Secures.fileWithin hv hl
    rw [hs, imports_append, bind_assoc]
    refine Ends.run.seq (fun e q hq => by cases hi.symm.trans hq) ?_
    rintro _ q hq
    cases hi.symm.trans hq
    have hrest : Secures (s.verdict s') s'.names.types
        (imports (fileWithin lib n) file (i :: after)) p' :=
      .imports_cons hact (ih hc hact (hp.steps (Advances.steps hw))) fun _ hq => hq.imports after
    exact hrest.bind fun _ _ hq => hq.check

/-! ### Entries of a file -/

namespace Account

variable {cs : List (Check Task)} {vs : List Visit} {s e : Session}

/-- Where no two visits share a number, the entries that are found are those of the visits. -/
theorem typeOf?_eq_some (h : Account cs vs s e) (hs : s.types = []) (hn : (vs.map (·.1.id)).Nodup)
    {n : Nat} {t : ValueType} : e.types.typeOf? e.names.types n = some t ↔
      ∃ v ∈ vs, v.entry? = some (n, t) := by
  obtain ⟨added, ha, hd⟩ := h.recorded
  rw [hs, List.append_nil] at ha
  rw [← ha] at hd
  have hkeys : (e.types.map (·.1)).Nodup := by
    have hfst : e.types.map (·.1) = ((vs.filterMap Visit.entry?).map (·.1)).reverse := by
      rw [← List.map_reverse, ← hd, NodeTypes.decoded, List.map_map]
      rfl
    rw [hfst]
    exact (List.reverse_perm _).nodup_iff.mpr (hn.sublist (entries_sublist vs))
  rw [NodeTypes.typeOf?_eq_some hkeys, hd, List.mem_reverse, List.mem_filterMap]

/-- Where no two visits share a number, no node is visited twice. -/
theorem eq_of_mem (hn : (vs.map (·.1.id)).Nodup) {v w : Visit} (hv : v ∈ vs) (hw : w ∈ vs)
    (he : v.1 = w.1) : v = w := by
  have hfound := find?_eq_of_nodup hn hv
  rw [he] at hfound
  exact Option.some.inj (hfound.symm.trans (find?_eq_of_nodup hn hw))

end Account

/-- The entry of an expression with a type is there when its check ends. -/
theorem Check.typeOf?_of_expr {s s' : Session} {e : Expr} {t : ValueType} (hl : s.Legible)
    (h : Check.expr e s = .ok t s') (ht : t ≠ .undefined) :
    s'.types.typeOf? s'.names.types e.id = some t := by
  rw [Check.expr_eq] at h
  obtain ⟨t₁, s₁, htyped, hrecord⟩ := bind_eq_ok h
  obtain ⟨hreadable, _, _, hacc⟩ := (Check.tells_typed e s hl).ok htyped
  obtain ⟨rfl, _, _, added, ha, hd⟩ := (Check.record_ends hacc.legible hreadable e.id).ok hrecord
  rw [if_neg ht] at hd
  obtain ⟨⟨n, k⟩, rfl, hentry⟩ := List.map_eq_singleton_iff.mp hd
  obtain ⟨rfl, hk⟩ : n = e.id ∧ s'.names.types.valueType k = t := Prod.mk.inj hentry
  rw [NodeTypes.typeOf?, NodeTypes.get?, ha, List.singleton_append, List.lookup_cons_self,
    Option.map_some, hk]

/-- No two nodes of a file that was read share a number. -/
theorem SourceFile.nodup_nodes {lib : Library} {f : String} {source : SourceFile}
    (h : Project.load lib f = .ok source) : (source.nodes.map Expr.id).Nodup := by
  obtain ⟨text, hp⟩ := Project.load_eq_ok h
  exact (SourceFile.parse_nodup hp).sublist (Expr.nodesAll_sublist source.exprs)

/-- The visits of the check that leads from `s₀` to `s₁`: every node of the file is visited once, from a
legible session, and the entries are those of the visits. Only calls of functions without a return type
have none. -/
structure SourceFile.Visited (source : SourceFile) (s₀ s₁ : Session) (vs : List Visit) : Prop where
  legible : s₁.Legible
  visits : ∀ e s, Reaches (.file source) s₀ (.expr e) s ↔ (e, s) ∈ vs
  nodes : (vs.map (·.1)).Perm source.nodes
  once : (vs.map (·.1.id)).Nodup
  right : ∀ v ∈ vs, v.2.Legible ∧ ∃ t s', Check.expr v.1 v.2 = .ok t s'
  entries : ∀ n t, s₁.types.typeOf? s₁.names.types n = some t ↔ ∃ v ∈ vs, v.entry? = some (n, t)
  undefined : ∀ v ∈ vs, ∀ t s', Check.expr v.1 v.2 = .ok t s' →
    (t = .undefined ↔ v.1.CallsProcedure v.2)

namespace SourceFile.Visited

variable {source : SourceFile} {s₀ s₁ s s' : Session} {vs : List Visit} {e : Expr} {t : ValueType}

theorem mem_nodes_iff (h : source.Visited s₀ s₁ vs) :
    e ∈ source.nodes ↔ ∃ s, Reaches (.file source) s₀ (.expr e) s := by
  rw [← h.nodes.mem_iff]
  simp [h.visits]

/-- The entry of a node stands for the type that its check gives. -/
theorem typeOf?_eq_some (h : source.Visited s₀ s₁ vs) (hm : (e, s) ∈ vs)
    (hr : Check.expr e s = .ok t s') (ht : t ≠ .undefined) :
    s₁.types.typeOf? s₁.names.types e.id = some t := by
  rw [h.entries]
  exact ⟨(e, s), hm, Visit.entry?_eq_some.mpr ⟨s', hr, rfl, ht⟩⟩

/-- The entries are those of the nodes that do not call a function without a return type. -/
theorem isSome_iff (h : source.Visited s₀ s₁ vs) (n : Nat) :
    (s₁.types.get? n).isSome ↔ ∃ e ∈ source.nodes, e.id = n ∧
      ∀ s, Reaches (.file source) s₀ (.expr e) s → ¬ e.CallsProcedure s := by
  constructor
  · intro hsome
    obtain ⟨k, hk⟩ := Option.isSome_iff_exists.mp hsome
    have htype : s₁.types.typeOf? s₁.names.types n = some (s₁.names.types.valueType k) := by
      rw [NodeTypes.typeOf?, hk, Option.map_some]
    obtain ⟨⟨e, s⟩, hm, hentry⟩ := (h.entries n _).mp htype
    obtain ⟨s', hexpr, hid, hne⟩ := Visit.entry?_eq_some.mp hentry
    refine ⟨e, h.mem_nodes_iff.mpr ⟨s, (h.visits e s).mpr hm⟩, hid, ?_⟩
    intro s₂ hs₂ hcall
    cases Account.eq_of_mem h.once hm ((h.visits e s₂).mp hs₂) rfl
    exact hne ((h.undefined _ hm _ s' hexpr).mpr hcall)
  · rintro ⟨e, he, rfl, hcalls⟩
    obtain ⟨s, hs⟩ := h.mem_nodes_iff.mp he
    have hm := (h.visits e s).mp hs
    obtain ⟨_, t, s', hexpr⟩ := h.right _ hm
    have hne : t ≠ .undefined := by
      intro hu
      exact hcalls s hs ((h.undefined _ hm t s' hexpr).mp hu)
    obtain ⟨k, hk, _⟩ := Option.map_eq_some_iff.mp (h.typeOf?_eq_some hm hexpr hne)
    simp [hk]

end SourceFile.Visited

section Starts

variable {lib : Library} {file : String} {source : SourceFile} {s₀ s₁ : Session}
  (hs : Starts lib lib.limit file .empty source s₀) (hc : Check.file source s₀ = .ok () s₁)

include hs hc

theorem Starts.visited : ∃ vs, source.Visited s₀ s₁ vs := by
  have hidle : file ∉ Project.empty.active := by simp [Project.empty]
  obtain ⟨f, hl, _, hnone⟩ := hs.loaded
  obtain ⟨_, vs, hvs, hacc⟩ :=
    (Check.tells_file (Project.load_sound hl) s₀ (hs.legible Project.legible_empty hidle)).ok hc
  obtain ⟨g, hcoherent, hbody⟩ := hs.coherent (Project.booked_empty lib) hidle
  have hkept : Check.Kept s₀ := ⟨⟨g, []⟩, hcoherent, by simp [hbody]⟩
  have hvisits : ∀ e s, Reaches (.file source) s₀ (.expr e) s ↔ (e, s) ∈ vs := fun e s =>
    arrives_pure.symm.trans (hacc.visits e s)
  have hnodes : (vs.map (·.1)).Perm source.nodes := hvs ▸ source.nodes_perm
  have honce : (vs.map (·.1.id)).Nodup := by
    have hids := hnodes.map Expr.id
    rw [List.map_map] at hids
    exact hids.nodup_iff.mpr (SourceFile.nodup_nodes hl)
  refine ⟨vs, hacc.legible, hvisits, hnodes, honce, hacc.right, ?_, ?_⟩
  · intro n t
    exact hacc.typeOf?_eq_some hnone honce
  · -- Every visit is from a session that shows a ledger.
    intro v hm t s' hr
    have hreached := (hvisits v.1 v.2).mpr hm
    exact Check.undefined_iff_of_expr (hacc.right v hm).1 (hreached.kept hbody hkept) hr

/-- The file stays verified through the rest of this compilation and through all later ones. -/
theorem Starts.holds_afterAll (calls : List (Library × String)) :
    Project.Holds (s₀.verdict s₁) s₁.names.types (.afterAll ((lib, file) :: calls)) := by
  have hidle : file ∉ Project.empty.active := by simp [Project.empty]
  have hrun := hs.secures hc hidle ⟨List.nodup_nil, by simp [Project.empty]⟩
  have hfirst : Project.Holds (s₀.verdict s₁) s₁.names.types (Project.empty.after lib file) := by
    unfold Project.after
    split
    · next hr => exact hrun.ok hr
    · next hr => exact hrun.error hr
  exact hfirst.afterAll calls

end Starts

/-- Recorded types are complete and follow the rules. Let a compilation on a new project lead to the
check of a file, and let the file be right; then it is verified from then on, whatever is compiled
later. It has entries for exactly the nodes of the file that are not calls of functions without a
return type. The check of every node is reached, and whenever it is, it succeeds with the type that the
rules read off the same storage; the type is undefined only for such calls, and otherwise the entry of
the node stands for it, when the check of the node ends and after any later attempts to compile. -/
theorem recorded_types_follow_rules (lib : Library) (file : String) {source : SourceFile}
    {s₀ s₁ : Session} (hs : Starts lib lib.limit file .empty source s₀)
    (hc : Check.file source s₀ = .ok () s₁) (calls : List (Library × String)) :
    let p := Project.afterAll ((lib, file) :: calls)
    let v := s₀.verdict s₁
    p.verified? s₀.file = some v ∧
    (∀ n, (v.types.get? n).isSome ↔ ∃ e ∈ source.nodes, e.id = n ∧
      ∀ s, Reaches (.file source) s₀ (.expr e) s → ¬ e.CallsProcedure s) ∧
    (∀ e, e ∈ source.nodes ↔ ∃ s, Reaches (.file source) s₀ (.expr e) s) ∧
    ∀ e s, Reaches (.file source) s₀ (.expr e) s →
      ∃ t s', Check.expr e s = .ok t s' ∧ s'.memory = s.memory ∧ e.typeIn s'.memory = .ok t ∧
        (t = .undefined ↔ e.CallsProcedure s) ∧
        (t ≠ .undefined → s'.types.typeOf? s'.names.types e.id = some t ∧
          v.types.typeOf? p.names.types e.id = some t) := by
  intro p v
  have hholds : Project.Holds v s₁.names.types p := hs.holds_afterAll hc calls
  obtain ⟨vs, hvisited⟩ := hs.visited hc
  refine ⟨hholds.verified, hvisited.isSome_iff, fun e => hvisited.mem_nodes_iff, ?_⟩
  intro e s hr
  have hm := (hvisited.visits e s).mp hr
  obtain ⟨hlegible, t, s', hexpr⟩ := hvisited.right _ hm
  have hmemory : s'.memory = s.memory := ((Check.notes_expr e s).ok hexpr).memory_eq
  refine ⟨t, s', hexpr, hmemory, ?_, hvisited.undefined _ hm t s' hexpr, ?_⟩
  · rw [hmemory]
    exact Check.typeIn_of_expr e hexpr
  · intro hne
    constructor
    · exact Check.typeOf?_of_expr hlegible hexpr hne
    · exact NodeTypes.typeOf?_mono hvisited.legible.types.ordered hholds.types
        (hvisited.typeOf?_eq_some hm hexpr hne) hne

/-- A library whose main file calls a function of another file for its effect and one for its value,
and asks a value for one of its fields. -/
def calledFor : Library :=
  .ofTexts [("main", "import \"lib\"; fn f(p: P) -> u16 \x7b tick(); return p.x + count(); \x7d"),
    ("lib", "export type P \x7b x: u8 \x7d export fn tick() \x7b \x7d " ++
      "export fn count() -> u16 \x7b return 300; \x7d")]

/-- The node that calls `tick` has no entry, because the check meets it where `tick` returns nothing;
the sum has one, and storage gives it the same type. The third node, a field, is not among them. -/
theorem recorded_types_follow_rules_calledFor :
    ∃ source s₀ s₁, Starts calledFor calledFor.limit "main" .empty source s₀ ∧
      Check.file source s₀ = .ok () s₁ ∧ source.nodes.map (·.id) = [0, 1, 3, 4, 5] ∧
      (∃ e ∈ source.nodes, e.id = 0 ∧
        ∃ s, Reaches (.file source) s₀ (.expr e) s ∧ e.CallsProcedure s) ∧
      ∃ e ∈ source.nodes, e.id = 5 ∧
        ∃ s, Reaches (.file source) s₀ (.expr e) s ∧ e.typeIn s.memory = .ok (.prim .u16) := by
  have hrun : (Project.empty.begin? calledFor 2 "main").any (fun b =>
      b.2.file == "main" && b.1.nodes.map (·.id) == [0, 1, 3, 4, 5] &&
      (success? (Check.file b.1 b.2)).any fun s =>
        (s.types.get? 0).isNone && (s.types.get? 5).isSome) = true := by decide +kernel
  have hafter : ((Project.afterAll [(calledFor, "main")]).verified? "main").map
      (·.types.typeOf? (Project.afterAll [(calledFor, "main")]).names.types 5) =
        some (some (.prim .u16)) := by decide +kernel
  obtain ⟨⟨source, s₀⟩, hb, htest⟩ := (Option.any_eq_true _ _).mp hrun
  simp only [Bool.and_eq_true, beq_iff_eq] at htest
  obtain ⟨⟨hfile, hids⟩, htest⟩ := htest
  obtain ⟨s₁, hs₁, htest⟩ := (Option.any_eq_true _ _).mp htest
  have hc := success?_eq_some.mp hs₁
  rw [Bool.and_eq_true, Option.isNone_iff_eq_none] at htest
  have hstart : Starts calledFor calledFor.limit "main" .empty source s₀ := .of_begin? rfl hb
  obtain ⟨hverified, hentries, hreached, hrules⟩ :=
    recorded_types_follow_rules calledFor "main" hstart hc []
  refine ⟨source, s₀, s₁, hstart, hc, hids, ?_, ?_⟩
  · obtain ⟨e, he, hid⟩ : ∃ e ∈ source.nodes, e.id = 0 :=
      List.mem_map.mp (by rw [hids]; decide)
    refine ⟨e, he, hid, Classical.byContradiction fun hnone => ?_⟩
    have hsome := (hentries 0).mpr ⟨e, he, hid, fun s hs hcall => hnone ⟨s, hs, hcall⟩⟩
    rw [show (s₀.verdict s₁).types.get? 0 = none from htest.1] at hsome
    cases hsome
  · obtain ⟨e, he, hid, hcalls⟩ := (hentries 5).mp htest.2
    obtain ⟨s, hs⟩ := (hreached e).mp he
    obtain ⟨t, s', _, hm, htype, hundefined, hrecorded⟩ := hrules e s hs
    have hlater := (hrecorded fun hu => hcalls s hs (hundefined.mp hu)).2
    rw [hfile] at hverified
    rw [hverified, Option.map_some, ← hid, hlater] at hafter
    cases hafter
    exact ⟨e, he, hid, s, hs, hm ▸ htype⟩

end StoragePlan
