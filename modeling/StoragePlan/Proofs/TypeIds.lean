import StoragePlan.Proofs.Scanning

/-!
Type ids can be read back. Storage keeps the types of values and fields as text, and `ofId` makes
types of them again. The canonical types are exactly those that come back, and every text stands for a
canonical type. A type that a program can write is canonical; this hangs on the names being words, for a
name with a bracket in it would be taken for an array.
-/

namespace StoragePlan

/-! ### Numbers -/

theorem digit?_of_isDigit {c : Char} (h : c.isDigit = true) :
    digit? 10 c = some (c.toNat - '0'.toNat) := by
  have hrange : 48 ≤ c.val ∧ c.val ≤ 57 := by simpa [Char.isDigit] using h
  have hlo : '0' ≤ c := hrange.1
  have hhi : c ≤ '9' := hrange.2
  have hhi' : c.toNat ≤ 57 := hhi
  have hlt : c.toNat - '0'.toNat < 10 := by
    change c.toNat - 48 < 10
    omega
  simp only [digit?, hlo, hhi, decide_true, Bool.and_self, if_true]
  exact Option.filter_some_pos (by simpa using hlt)

theorem digits?_of_isDigit {cs : List Char} (h : ∀ c ∈ cs, c.isDigit = true) (acc : Nat) :
    digits? 10 acc cs = some (Nat.ofDigitChars 10 cs acc) := by
  induction cs generalizing acc with
  | nil => simp [digits?]
  | cons c cs ih =>
    rw [List.forall_mem_cons] at h
    rw [digits?, digit?_of_isDigit h.1, Nat.ofDigitChars_cons, Nat.mul_comm 10 acc]
    exact ih h.2 _

theorem isDigit_of_mem_toDigits {n : Nat} : ∀ c ∈ Nat.toDigits 10 n, c.isDigit = true :=
  fun _ hc => Nat.isDigit_of_mem_toDigits (by decide) (by decide) hc

namespace ValueType

theorem dimension?_toDigits {n : Nat} (h : n ≤ wordLimit) :
    dimension? (Nat.toDigits 10 n) = some n := by
  have hdigits := isDigit_of_mem_toDigits (n := n)
  have hread := digits?_of_isDigit hdigits 0
  rw [Nat.ofDigitChars_ten_toDigits] at hread
  have hplus : ∀ rest, Nat.toDigits 10 n ≠ '+' :: rest := fun rest he => by
    have hd := hdigits '+' (by simp [he])
    exact absurd hd (by decide)
  unfold dimension?
  split
  · next rest hr => exact absurd hr (hplus rest)
  · dsimp only
    rw [if_neg (by simp [Nat.toDigits_ne_nil]), hread]
    exact Option.filter_some_pos (by simpa using h)

/-! ### Dimensions -/

/-- The characters of the dimensions in a type id. -/
def dimsChars (dims : List Nat) : List Char :=
  dims.flatMap fun d => '[' :: (Nat.toDigits 10 d ++ [']'])

theorem toList_dimsText (dims : List Nat) : (dimsText dims).toList = dimsChars dims := by
  unfold dimsText dimsChars
  induction dims with
  | nil => rfl
  | cons d dims ih =>
    rw [List.map_cons, String.join_cons, String.toList_append, ih, List.flatMap_cons]
    simp [Nat.toList_repr]

theorem pieces_append {cs : List Char} (h : ∀ c ∈ cs, isBracket c = false) (rest : List Char) :
    pieces (cs ++ ']' :: rest) = cs :: pieces rest := by
  induction cs with
  | nil => rfl
  | cons c cs ih =>
    rw [List.forall_mem_cons] at h
    simp [pieces, h.1, ih h.2]

theorem pieces_dimsChars (dims : List Nat) :
    (pieces (dimsChars dims)).filter (!·.isEmpty) = dims.map (Nat.toDigits 10) := by
  induction dims with
  | nil => rfl
  | cons d dims ih =>
    have hd : ∀ c ∈ Nat.toDigits 10 d, isBracket c = false := fun c hc => by
      have := isDigit_of_mem_toDigits c hc
      unfold isBracket
      rw [Bool.or_eq_false_iff, beq_eq_false_iff_ne, beq_eq_false_iff_ne]
      constructor <;> rintro rfl <;> exact absurd this (by decide)
    have hp : pieces (dimsChars (d :: dims)) = [] :: Nat.toDigits 10 d :: pieces (dimsChars dims) := by
      rw [dimsChars, List.flatMap_cons, List.cons_append, List.append_assoc]
      exact congrArg _ (pieces_append hd _)
    rw [hp, List.filter_cons_of_neg (by simp), List.filter_cons_of_pos (by simp [Nat.toDigits_ne_nil]),
      ih, List.map_cons]

theorem mapM_dimension? {dims : List Nat} (h : ∀ d ∈ dims, d ≤ wordLimit) :
    (dims.map (Nat.toDigits 10)).mapM dimension? = some dims := by
  induction dims with
  | nil => rfl
  | cons d dims ih =>
    rw [List.forall_mem_cons] at h
    simp [dimension?_toDigits h.1, ih h.2]

theorem dimension?_le {cs : List Char} {d : Nat} (h : dimension? cs = some d) : d ≤ wordLimit := by
  unfold dimension? at h
  rw [Option.ite_none_left_eq_some] at h
  simpa using (Option.filter_eq_some_iff.mp h.2).2

theorem le_of_mapM_dimension? {texts : List (List Char)} {dims : List Nat}
    (h : texts.mapM dimension? = some dims) : ∀ d ∈ dims, d ≤ wordLimit := by
  induction texts generalizing dims with
  | nil =>
    cases h
    simp
  | cons cs texts ih =>
    simp only [List.mapM_cons, Option.bind_eq_bind, Option.bind_eq_some_iff, Option.pure_def,
      Option.some.injEq] at h
    obtain ⟨d, hd, ds, hds, rfl⟩ := h
    exact List.forall_mem_cons.mpr ⟨dimension?_le hd, ih hds⟩

/-! ### Canonical types -/

def isArray : ValueType → Bool
  | array _ _ => true
  | _ => false

/-- A type of which nothing is lost in its id: a name is taken for nothing else, and the dimensions of an
array are all in one place. -/
inductive Canonical : ValueType → Prop
  | undefined : Canonical undefined
  | prim (p : Primitive) : Canonical (prim p)
  | udt {id : String} : id ≠ "" → '[' ∉ id.toList → id ≠ undefinedId →
    (∀ p : Primitive, p.name ≠ id) → Canonical (udt id)
  | array {element : ValueType} {dims : List Nat} : Canonical element → element.isArray = false →
    dims ≠ [] → (∀ d ∈ dims, d ≤ wordLimit) → Canonical (array element dims)

namespace Canonical

variable {t : ValueType}

theorem ofBase_typeId (h : t.Canonical) (ha : t.isArray = false) : ofBase t.typeId = t := by
  cases h with
  | undefined => rfl
  | prim p => cases p <;> decide
  | @udt id hempty hbracket hundefined hprimitive =>
    have hne : (id == undefinedId || id == "") = false := by simp [hundefined, hempty]
    simp [ofBase, typeId, hne, Primitive.ofWord?_eq_none.mpr hprimitive]
  | array => cases ha

theorem ne_bracket (h : t.Canonical) (ha : t.isArray = false) :
    ∀ c ∈ t.typeId.toList, (c != '[') = true := by
  cases h with
  | undefined => exact List.all_eq_true.mp (by decide)
  | prim p => cases p <;> exact List.all_eq_true.mp (by decide)
  | udt hempty hbracket =>
    intro c hc
    rw [bne_iff_ne]
    rintro rfl
    exact hbracket hc
  | array => cases ha

end Canonical

/-- An id without brackets is that of no array. -/
theorem ofId_eq_ofBase {id : String} (h : ∀ c ∈ id.toList, (c != '[') = true) :
    ofId id = ofBase id := by
  have hd : id.toList.dropWhile (· != '[') = [] := by
    rw [← List.append_nil id.toList, List.dropWhile_append_of_pos h, List.dropWhile_nil]
  simp only [ofId, hd]

/-- A canonical type is read back from its id. -/
theorem Canonical.ofId_typeId {t : ValueType} (h : t.Canonical) : ofId t.typeId = t := by
  cases ha : t.isArray with
  | false => rw [ofId_eq_ofBase (h.ne_bracket ha), h.ofBase_typeId ha]
  | true =>
    cases h with
    | undefined | prim | udt => cases ha
    | @array element dims he hflat hne hdims =>
      obtain ⟨d, ds, rfl⟩ := List.exists_cons_of_ne_nil hne
      have hbracket := he.ne_bracket hflat
      have hchars : (ValueType.array element (d :: ds)).typeId.toList =
          element.typeId.toList ++ dimsChars (d :: ds) := by
        rw [typeId, String.toList_append, toList_dimsText]
      have hrest : dimsChars (d :: ds) = '[' :: (Nat.toDigits 10 d ++ [']'] ++ dimsChars ds) := by
        simp [dimsChars]
      have htake : (element.typeId.toList ++ dimsChars (d :: ds)).takeWhile (· != '[') =
          element.typeId.toList := by
        rw [List.takeWhile_append_of_pos hbracket, hrest]
        simp
      have hdrop : (element.typeId.toList ++ dimsChars (d :: ds)).dropWhile (· != '[') =
          dimsChars (d :: ds) := by
        rw [List.dropWhile_append_of_pos hbracket, hrest]
        simp
      have hread : ((pieces (dimsChars (d :: ds))).filter (!·.isEmpty)).mapM dimension? =
          some (d :: ds) := by
        rw [pieces_dimsChars, mapM_dimension? hdims]
      simp only [ofId, hchars, htake, hdrop]
      split
      · next hnil => simp [hrest] at hnil
      · rw [hread, String.ofList_toList, he.ofBase_typeId hflat]

theorem canonical_ofBase {id : String} (h : '[' ∉ id.toList) :
    (ofBase id).Canonical ∧ (ofBase id).isArray = false := by
  unfold ofBase
  split
  · exact ⟨.undefined, rfl⟩
  · next hne =>
    obtain ⟨hundefined, hempty⟩ : id ≠ undefinedId ∧ id ≠ "" := by simpa using hne
    split
    · next p _ => exact ⟨.prim p, rfl⟩
    · next hp => exact ⟨.udt hempty h hundefined (Primitive.ofWord?_eq_none.mp hp), rfl⟩

/-- Whatever an id says, the type that is read from it is canonical. -/
theorem canonical_ofId (id : String) : (ofId id).Canonical := by
  have hbase : '[' ∉ id.toList.takeWhile (· != '[') := by
    intro hmem
    simpa using List.all_eq_true.mp List.all_takeWhile _ hmem
  simp only [ofId]
  split
  · next hdrop =>
    have hall := List.takeWhile_append_dropWhile (p := (· != '[')) (l := id.toList)
    rw [hdrop, List.append_nil] at hall
    exact (canonical_ofBase (hall ▸ hbase)).1
  · split
    · next d ds hdims =>
      have hchars : '[' ∉ (String.ofList (id.toList.takeWhile (· != '['))).toList := by
        rwa [String.toList_ofList]
      obtain ⟨hcanonical, hflat⟩ := canonical_ofBase hchars
      exact .array hcanonical hflat (List.cons_ne_nil d ds) (le_of_mapM_dimension? hdims)
    · exact .undefined

/-! ### Types that a program can write -/

/-- A primitive or a user defined type. -/
def Simple : ValueType → Prop
  | prim _ => True
  | udt id => IsName id
  | _ => False

/-- A type as a program can write it. -/
def Plain : ValueType → Prop
  | array element dims => element.Simple ∧ dims ≠ [] ∧ ∀ d ∈ dims, d ≤ wordLimit
  | t => t.Simple

theorem Simple.canonical {t : ValueType} (h : t.Simple) : t.Canonical ∧ t.isArray = false := by
  cases t with
  | prim p => exact ⟨.prim p, rfl⟩
  | udt id =>
    refine ⟨.udt h.ne_empty (fun hmem => ?_) h.ne_undefinedId ?_, rfl⟩
    · exact h.ne_bracket '[' hmem rfl
    · exact Primitive.ofWord?_eq_none.mp h.notPrimitive
  | array element dims => cases h
  | undefined => cases h

theorem Plain.canonical {t : ValueType} (h : t.Plain) : t.Canonical := by
  cases t with
  | prim p => exact .prim p
  | udt id => exact (Simple.canonical (t := udt id) h).1
  | undefined => exact .undefined
  | array element dims =>
    obtain ⟨hsimple, hne, hdims⟩ := h
    exact .array hsimple.canonical.1 hsimple.canonical.2 hne hdims

/-- Every type that a program can write is read back from its id. -/
theorem ofId_typeId {t : ValueType} (h : t.Plain) : ofId t.typeId = t := h.canonical.ofId_typeId

end ValueType

/-- Type ids are a faithful encoding of types as text. A type is read back from its id if and only if it
is canonical; and every text whatsoever is read as a canonical type, so that reading the id of what was
read changes nothing. -/
theorem typeIds_faithful :
    (∀ t : ValueType, .ofId t.typeId = t ↔ t.Canonical) ∧
    ∀ id : String, (ValueType.ofId id).Canonical ∧
      ValueType.ofId (ValueType.ofId id).typeId = .ofId id := by
  refine ⟨fun t => ⟨fun h => ?_, fun h => h.ofId_typeId⟩, fun id => ?_⟩
  · rw [← h]
    exact ValueType.canonical_ofId t.typeId
  · have hcanonical := ValueType.canonical_ofId id
    exact ⟨hcanonical, hcanonical.ofId_typeId⟩

/-- Brackets only divide, a plus may stand before a number, and empty pieces are left out; what was read
has one id. -/
example : ValueType.ofId "Point[]+4]2[" = .array (.udt "Point") [4, 2] ∧
    (ValueType.ofId "Point[]+4]2[").typeId = "Point[4][2]" := by decide +kernel

end StoragePlan
