import StoragePlan.Proofs.Decoding
import StoragePlan.Proofs.Safety

/-!
Types that can be read back, in storage and in the table of types. Storage keeps types as texts and the
table as entries; while both hold only types that a program can write, the type of every expression is
one of those too, or `undefined` where a call has no value. This asks nothing of the names, so it also
holds of what a failed check leaves.
-/

namespace StoragePlan

/-- A type that a program can write, or none at all. -/
def ValueType.Readable (t : ValueType) : Prop := t = .undefined ∨ t.Plain

namespace ValueType

variable {t l r i : ValueType}

theorem Plain.readable (h : t.Plain) : t.Readable := .inr h

theorem Plain.ne_undefined (h : t.Plain) : t ≠ .undefined := by
  rintro rfl
  cases h

theorem Readable.plain (h : t.Readable) (hu : t ≠ .undefined) : t.Plain := h.resolve_left hu

/-! ### Operators -/

theorem ofLiteral_plain {token : Token} (h : ofLiteral token = .ok t) : t.Plain := by
  unfold ofLiteral at h
  split at h
  · cases h
    trivial
  · cases h
    trivial
  · cases h

theorem ofBinary_plain {op : Token} (hl : l.Plain) (hr : r.Plain) (h : ofBinary op l r = .ok t) :
    t.Plain := by
  unfold ofBinary at h
  split at h
  · next t' hb =>
    cases h
    unfold binary? at hb
    split at hb
    · split at hb
      · cases hb
        exact hl
      · cases hb
    · cases hb
    · exact absurd rfl hl.ne_undefined
    · exact absurd rfl hr.ne_undefined
    · cases hb
      trivial
    · cases hb
  · cases h

theorem ofUnary_plain {op : Token} (ht : l.Plain) (h : ofUnary op l = .ok t) : t.Plain := by
  unfold ofUnary at h
  split at h
  · next hu => exact absurd (eq_of_beq hu) ht.ne_undefined
  · split at h
    · cases h
      exact ht
    · cases h

theorem element?_plain (ht : l.Plain) (h : l.element? = some t) : t.Plain := by
  unfold element? at h
  split at h
  · next d ds =>
    cases h
    obtain ⟨hs, _, hd⟩ := ht
    exact ⟨hs, List.cons_ne_nil d ds, fun n hn => hd n (List.mem_cons_of_mem _ hn)⟩
  · cases h
    exact ht.1.plain
  · cases h

theorem ofIndex_plain {bracket : Token} (ht : l.Plain) (h : ofIndex bracket l i = .ok t) :
    t.Plain := by
  unfold ofIndex at h
  split at h
  · next hu => exact absurd (eq_of_beq hu) ht.ne_undefined
  · split at h
    · cases h
    · next element he =>
      split at h
      · cases h
        exact element?_plain ht he
      · cases h

end ValueType

/-! ### Storage -/

/-- The types that an element mentions can be read back: that of a value, and that of the value which
a function returns. -/
def Element.Legible (e : Element) : Prop :=
  match e.content with
  | .value id => (ValueType.ofId id).Plain
  | .function sig => ∀ id ∈ sig.returns, (ValueType.ofId id).Plain

def Udt.Legible (u : Udt) : Prop := ∀ f ∈ u.fields, (ValueType.ofId f.typeId).Plain

theorem Element.legible_named {t : ValueType} (h : t.Plain) (id : String) (size : Nat) (v : Int) :
    (Element.named id t.typeId size v).Legible := by
  change (ValueType.ofId t.typeId).Plain
  rwa [ValueType.ofId_typeId h]

structure Tracker.Legible (m : Tracker) : Prop where
  dataSegment : ∀ e ∈ m.dataSegment, e.Legible
  stack : ∀ e ∈ m.stack, e.Legible
  udts : ∀ u ∈ m.udts, u.Legible

namespace Tracker

variable {m : Tracker}

theorem legible_empty : Legible empty := ⟨by simp [empty], by simp [empty], by simp [empty]⟩

theorem Legible.insert (h : m.Legible) {e : Element} (he : e.Legible) : (m.insert e).Legible where
  dataSegment e' he' := by
    rcases List.mem_append.mp he' with he' | he'
    · exact h.dataSegment e' he'
    · rwa [List.mem_singleton.mp he']
  stack := h.stack
  udts := h.udts

theorem Legible.push (h : m.Legible) {e : Element} (he : e.Legible) : (m.push e).Legible where
  dataSegment := h.dataSegment
  stack := List.forall_mem_cons.mpr ⟨he, h.stack⟩
  udts := h.udts

theorem Legible.addUdt (h : m.Legible) {u : Udt} (hu : u.Legible) : (m.addUdt u).Legible where
  dataSegment := h.dataSegment
  stack := h.stack
  udts := List.forall_mem_cons.mpr ⟨hu, h.udts⟩

theorem Legible.addUdts (h : m.Legible) {us : List Udt} (hu : ∀ u ∈ us, u.Legible) :
    (us.foldl (fun m u => m.addUdt u) m).Legible := by
  induction us generalizing m with
  | nil => exact h
  | cons u us ih =>
    rw [List.forall_mem_cons] at hu
    exact ih (h.addUdt hu.1) hu.2

theorem Legible.openScope (h : m.Legible) : m.openScope.Legible :=
  ⟨h.dataSegment, h.stack, h.udts⟩

theorem Legible.closeScope (h : m.Legible) : m.closeScope.2.Legible := by
  unfold Tracker.closeScope
  split
  · exact h
  · exact ⟨h.dataSegment, fun e he => h.stack e (List.mem_of_mem_drop he),
      fun u hu => h.udts u (List.mem_of_mem_drop hu)⟩

theorem Legible.closeTo (h : m.Legible) (d : Nat) : (m.closeTo d).Legible := by
  unfold Tracker.closeTo
  generalize m.scopes.length - d = n
  induction n generalizing m with
  | zero => exact h
  | succ n ih => exact ih h.closeScope

/-- What is found under a name is legible. -/
theorem Legible.find? (h : m.Legible) {id : String} {l : Location} (hf : m.find? id = some l) :
    l.element.Legible := by
  have he := find?_element m id
  rw [hf, Option.map_some] at he
  rcases Option.or_eq_some_iff.mp he.symm with he | ⟨_, he⟩
  · exact h.stack _ (List.mem_of_find?_eq_some he)
  · exact h.dataSegment _ (List.mem_of_find?_eq_some he)

end Tracker

namespace ValueType

variable {m : Tracker}

theorem ofName_readable (h : m.Legible) (id : String) : (ofName id m).Readable := by
  unfold ofName
  split
  · next typeId hc =>
    obtain ⟨l, hl, hcontent⟩ := Option.map_eq_some_iff.mp hc
    have he := h.find? hl
    rw [Element.Legible, hcontent] at he
    exact .inr he
  · exact .inl rfl

theorem ofField_plain (h : m.Legible) {id field : String}
    (hs : (m.findField? id field).isSome = true) : ((udt id).ofField field m).Plain := by
  obtain ⟨f, hf⟩ := Option.isSome_iff_exists.mp hs
  obtain ⟨u, hu, hfield⟩ := Option.bind_eq_some_iff.mp hf
  have hm := h.udts u (List.mem_of_find?_eq_some hu)
  simp only [ofField, hf]
  exact hm f (List.mem_of_find?_eq_some hfield)

theorem ofCall_readable (h : m.Legible) (id : String) : (ofCall id m).Readable := by
  unfold ofCall
  split
  · next sig hc =>
    split
    · next typeId hr =>
      obtain ⟨l, hl, hcontent⟩ := Option.map_eq_some_iff.mp hc
      have he := h.find? hl
      rw [Element.Legible, hcontent] at he
      exact .inr (he typeId hr)
    · exact .inl rfl
  · exact .inl rfl

end ValueType

/-! ### Sessions -/

/-- Every type that storage, the table of types or the types of the file mention can be read back. -/
structure Session.Legible (s : Session) : Prop where
  memory : s.memory.Legible
  types : s.names.types.Tidy
  udts : ∀ u ∈ s.udts, u.Legible

end StoragePlan
