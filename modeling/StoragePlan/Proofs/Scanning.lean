import StoragePlan.Token.Scan
import StoragePlan.Typing.ValueType

/-!
What the scanner promises of its tokens. A name is a word that is no primitive, so it can stand in a
type id without being taken for anything else; an integer fits 32 bits; and no two tokens stand at
the same place.
-/

namespace StoragePlan

theorem Primitive.mem_all (p : Primitive) : p ∈ all := by
  cases p <;> decide

theorem Keyword.mem_all (k : Keyword) : k ∈ all := by
  cases k <;> decide

theorem Primitive.ofWord?_eq_none {word : String} :
    Primitive.ofWord? word = none ↔ ∀ p : Primitive, p.name ≠ word := by
  simp [Primitive.ofWord?, Primitive.mem_all]

theorem Keyword.ofWord?_eq_none {word : String} :
    Keyword.ofWord? word = none ↔ ∀ k : Keyword, k.spelling ≠ word := by
  simp [Keyword.ofWord?, Keyword.mem_all]

/-- A word that can be the name of something. -/
structure IsName (id : String) : Prop where
  ne_empty : id ≠ ""
  chars : ∀ c ∈ id.toList, isWordChar c = true
  notPrimitive : Primitive.ofWord? id = none

theorem IsName.ne_undefinedId {id : String} (h : IsName id) : id ≠ undefinedId := by
  rintro rfl
  have hc := h.chars '<' (by decide)
  exact absurd hc (by decide)

theorem IsName.ne_bracket {id : String} (h : IsName id) : ∀ c ∈ id.toList, c ≠ '[' := by
  rintro c hc rfl
  exact absurd (h.chars '[' hc) (by decide)

/-- What a lexeme carries is in its range. -/
def Lexeme.Sound : Lexeme → Prop
  | .integer v => 0 ≤ v ∧ v ≤ Token.maxInteger
  | .name id => IsName id
  | _ => True

theorem Lexeme.sound_ofWord {word : String} (hne : word ≠ "")
    (hc : ∀ c ∈ word.toList, isWordChar c = true) : (ofWord word).Sound := by
  unfold ofWord
  split
  · trivial
  · next hp =>
    split
    · trivial
    · exact ⟨hne, hc, hp⟩

/-! ### Places -/

namespace Position

/-- The order in which a text is read. -/
def Before (p q : Position) : Prop := p.line < q.line ∨ p.line = q.line ∧ p.column < q.column

theorem Before.trans {p q r : Position} (h : Before p q) (h' : Before q r) : Before p r := by
  unfold Before at *
  omega

theorem Before.ne {p q : Position} (h : Before p q) : p ≠ q := by
  rintro rfl
  unfold Before at h
  omega

theorem before_next (p : Position) (c : Char) : Before p (p.next c) := by
  unfold Before next
  split <;> simp

end Position

theorem before_of_mem_locate {p : Position} {cs : List Char} :
    ∀ g ∈ locate p cs, p = g.position ∨ p.Before g.position := by
  induction cs generalizing p with
  | nil => simp [locate]
  | cons c cs ih =>
    refine List.forall_mem_cons.mpr ⟨.inl rfl, fun g hg => .inr ?_⟩
    rcases ih g hg with h | h
    · exact h ▸ p.before_next c
    · exact (p.before_next c).trans h

theorem locate_pairwise (p : Position) (cs : List Char) :
    ((locate p cs).map (·.position)).Pairwise Position.Before := by
  induction cs generalizing p with
  | nil => exact .nil
  | cons c cs ih =>
    refine List.pairwise_cons.mpr ⟨fun q hq => ?_, ih _⟩
    obtain ⟨g, hg, rfl⟩ := List.mem_map.mp hq
    rcases before_of_mem_locate g hg with h | h
    · exact h ▸ p.before_next c
    · exact (p.before_next c).trans h

/-! ### One step -/

namespace Token

def Sound (t : Token) : Prop := t.lexeme.Sound

theorem afterLine_suffix (gs : List Glyph) : afterLine gs <:+ gs := by
  induction gs with
  | nil => exact List.suffix_refl _
  | cons g rest ih =>
    unfold afterLine
    split
    · exact List.suffix_cons g rest
    · exact ih.trans (List.suffix_cons g rest)

theorem afterBlock?_suffix {gs after : List Glyph} (h : afterBlock? gs = some after) :
    after <:+ gs := by
  induction gs with
  | nil => cases h
  | cons g rest ih =>
    unfold afterBlock? at h
    split at h
    · cases h
    · next k tail =>
      split at h
      · cases h
        exact (List.suffix_cons k _).trans (List.suffix_cons g _)
      · exact (ih h).trans (List.suffix_cons g _)

theorem stringBody_suffix {start : Position} {gs after : List Glyph} {content : List Char}
    (h : stringBody start gs = .ok (content, after)) : after <:+ gs := by
  fun_induction stringBody start gs generalizing content with
  | case1 => cases h
  | case2 g rest hq =>
    cases h
    exact List.suffix_cons g _
  | case3 | case4 => cases h
  | case5 g hq he e tail c hc content' after' hr ih =>
    cases h
    exact (ih hr).trans ((List.suffix_cons e _).trans (List.suffix_cons g _))
  | case6 => cases h
  | case7 g rest hq he content' after' hr ih =>
    cases h
    exact (ih hr).trans (List.suffix_cons g _)
  | case8 => cases h

theorem sound_integer {word : List Char} {l : Lexeme} (h : integer word = .ok l) : l.Sound := by
  unfold integer at h
  split at h
  · cases h
  · split at h
    · cases h
    · next n hn =>
      split at h
      · next hle =>
        cases h
        exact ⟨Int.natCast_nonneg n, Int.ofNat_le.mpr hle⟩
      · cases h

theorem sound_signs : ∀ entry ∈ signs, entry.1 ≠ [] ∧ entry.2.Sound := by
  simp [signs, Lexeme.Sound]

theorem isWordChar_of_digit {c : Char} (h : ('0' ≤ c && c ≤ '9') = true) :
    isWordChar c = true := by
  rw [Bool.and_eq_true, decide_eq_true_eq, decide_eq_true_eq] at h
  have hlo : 0x30 ≤ c.toNat := h.1
  have hhi : c.toNat ≤ 0x39 := h.2
  have hn : isNumeral c = true := by
    unfold isNumeral numeralRanges covers
    rw [if_neg (by omega)]
    simp [hhi]
  simp [isWordChar, isAlphanumeric, hn]

theorem isWordChar_of_isWordStart {c : Char} (h : isWordStart c = true) :
    isWordChar c = true := by
  unfold isWordStart at h
  unfold isWordChar isAlphanumeric
  cases ha : isAlphabetic c <;> simp_all

/-- The word that starts with a glyph, and what follows it. -/
theorem word_split {p : Glyph → Bool} (hp : ∀ g, p g = isWordChar g.char) {g : Glyph}
    (rest : List Glyph) (hg : isWordChar g.char = true) :
    (∀ c ∈ chars ((g :: rest).takeWhile p), isWordChar c = true) ∧
      chars ((g :: rest).takeWhile p) ≠ [] ∧ (g :: rest).dropWhile p <:+ rest := by
  refine ⟨fun c hc => ?_, ?_, ?_⟩
  · obtain ⟨k, hk, rfl⟩ := List.mem_map.mp hc
    rw [← hp]
    exact List.all_eq_true.mp List.all_takeWhile k hk
  · simp [hp, hg, chars]
  · rw [List.dropWhile_cons, if_pos ((hp g).trans hg)]
    exact List.dropWhile_suffix p

/-- What a step does: it goes on, and a token that it reads stands where it began. -/
def Step.Fair (g : Glyph) (rest : List Glyph) : Step → Prop
  | .skip after => after <:+ rest
  | .read t after => t.Sound ∧ t.position = g.position ∧ after <:+ rest
  | .fail _ => True

theorem step_fair (g : Glyph) (rest : List Glyph) : (step g rest).Fair g rest := by
  have hdrop : ∀ n, (g :: rest).drop (n + 1) <:+ rest := fun n => by
    rw [List.drop_succ_cons]
    exact List.drop_suffix n rest
  unfold step
  dsimp only
  split
  · exact List.suffix_refl _
  split
  · exact (afterLine_suffix _).trans (hdrop 1)
  split
  · split
    · next after ha => exact (afterBlock?_suffix ha).trans (hdrop 1)
    · trivial
  split
  · next hd =>
    split
    · next l hl =>
      exact ⟨sound_integer hl, rfl, (word_split (fun _ => rfl) rest (isWordChar_of_digit hd)).2.2⟩
    · trivial
  split
  · split
    · next content after hs => exact ⟨trivial, rfl, stringBody_suffix hs⟩
    · trivial
  split
  · next hw =>
    obtain ⟨hchars, hne, hafter⟩ :=
      word_split (fun _ => rfl) rest (isWordChar_of_isWordStart hw)
    refine ⟨Lexeme.sound_ofWord (fun he => hne ?_) ?_, rfl, hafter⟩
    · rw [← String.ofList_eq_empty_iff]
      exact he
    · rw [String.toList_ofList]
      exact hchars
  · split
    · next spelling l hs =>
      have hentry := sound_signs _ (List.mem_of_find?_eq_some hs)
      obtain ⟨c, cs, hcons⟩ := List.exists_cons_of_ne_nil hentry.1
      refine ⟨hentry.2, rfl, ?_⟩
      rw [show spelling = c :: cs from hcons]
      exact hdrop cs.length
    · trivial

end Token

/-! ### The whole text -/

theorem scanSteps_sound (n : Nat) (gs : List Glyph) :
    (∀ t ∈ (scanSteps n gs).tokens, t.Sound) ∧
      ((scanSteps n gs).tokens.map (·.position)).Sublist (gs.map (·.position)) := by
  induction n generalizing gs with
  | zero => simp [scanSteps]
  | succ n ih =>
    cases gs with
    | nil => simp [scanSteps]
    | cons g rest =>
      have hfair := Token.step_fair g rest
      unfold scanSteps
      split
      · next after hs =>
        rw [hs] at hfair
        obtain ⟨hsound, hplaces⟩ := ih after
        refine ⟨hsound, hplaces.trans ?_⟩
        exact (List.IsSuffix.sublist hfair).map _ |>.trans (List.sublist_cons_self _ _)
      · next t after hs =>
        rw [hs] at hfair
        obtain ⟨ht, hp, hafter⟩ := hfair
        obtain ⟨hsound, hplaces⟩ := ih after
        refine ⟨List.forall_mem_cons.mpr ⟨ht, hsound⟩, ?_⟩
        simp only [Scanned.cons, List.map_cons, hp]
        exact (hplaces.trans (hafter.sublist.map _)).cons_cons _
      · simp

/-- The tokens of a text are sound. -/
theorem scan_sound (text : String) : ∀ t ∈ (scan text).tokens, t.Sound :=
  (scanSteps_sound _ _).1

/-- No two tokens of a text stand at the same place. -/
theorem scan_nodup (text : String) : ((scan text).tokens.map (·.position)).Nodup := by
  have hplaces : ((scan text).tokens.map (·.position)).Sublist ((glyphs text).map (·.position)) :=
    (scanSteps_sound _ _).2
  exact (locate_pairwise .start text.toList).sublist hplaces |>.imp Position.Before.ne

end StoragePlan
