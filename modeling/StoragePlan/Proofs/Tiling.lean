import StoragePlan.Proofs.Spelling

/-!
The scanner accounts for every character. A text is tiled by gaps and symbols up to its end, or up to
a character at which nothing can be read; the relation `Tiled` says so without mention of the scanner
and puts every token and the error at the place that the characters before it give. `tiled_scan` is
the main statement. One step is described first, on characters alone, then the whole run.
-/

namespace StoragePlan

/-! ### Places -/

/-- The place after some characters of a text: one more than the line ends among them, and one more
than the characters since the last line end. -/
def placeAfter (before : List Char) : Position :=
  ⟨1 + before.count '\n', 1 + (before.reverse.takeWhile (· != '\n')).length⟩

theorem placeAfter_concat (before : List Char) (c : Char) :
    placeAfter (before ++ [c]) = (placeAfter before).next c := by
  by_cases hc : c = '\n'
  · simp [placeAfter, Position.next, hc, Nat.add_assoc]
  · simp [placeAfter, Position.next, hc, Nat.add_assoc]

/-- The glyphs of a text that goes on after `before` are tagged with places after `before`. -/
theorem locate_append (before cs rest : List Char) :
    locate (placeAfter before) (cs ++ rest) =
      locate (placeAfter before) cs ++ locate (placeAfter (before ++ cs)) rest := by
  induction cs generalizing before with
  | nil => simp [locate]
  | cons c cs ih =>
    have hrest := ih (before ++ [c])
    rw [placeAfter_concat, List.append_assoc, List.singleton_append] at hrest
    simp only [List.cons_append, locate, hrest]

/-- What is left of the glyphs of a text is determined by its characters. -/
theorem eq_locate_of_suffix {before word tail : List Char} {after : List Glyph}
    (h : after <:+ locate (placeAfter before) (word ++ tail)) (hc : chars after = tail) :
    after = locate (placeAfter (before ++ word)) tail := by
  have htail : locate (placeAfter (before ++ word)) tail <:+
      locate (placeAfter before) (word ++ tail) := by
    rw [locate_append]
    exact List.suffix_append _ _
  have hlen : after.length = (locate (placeAfter (before ++ word)) tail).length := by
    have hchars := hc.trans (chars_locate (placeAfter (before ++ word)) tail).symm
    simpa [chars] using congrArg List.length hchars
  exact (List.suffix_of_suffix_length_le h htail hlen.le).eq_of_length hlen

/-- A glyph stands at the place that the glyphs before it give. -/
theorem position_of_locate {before text : List Char} {seen rest : List Glyph} {g : Glyph}
    (h : locate (placeAfter before) text = seen ++ g :: rest) :
    g.position = placeAfter (before ++ chars seen) := by
  have htext : text = chars seen ++ chars (g :: rest) := by
    rw [← chars_locate (placeAfter before) text, h]
    exact List.map_append
  subst htext
  have hafter := eq_locate_of_suffix (h ▸ List.suffix_append seen (g :: rest)) rfl
  exact congrArg Glyph.position (List.cons.inj hafter).1

/-! ### Tilings -/

/-- What may stand after the last symbol: a gap, perhaps with a comment that the text ends in. -/
inductive LastGap : List Char → Prop
  | gap {cs : List Char} : Gap cs → LastGap cs
  | line {gap body : List Char} : Gap gap → '\n' ∉ body → LastGap (gap ++ '/' :: '/' :: body)

/-- The symbol that a text starts with: no comment starts there, no longer spelling fits, and the
spelling does not break off inside a word. -/
structure Heads (word rest : List Char) (l : Lexeme) : Prop where
  solid : Token.Solid (word ++ rest)
  spells : Spells word l
  longest : ∀ more l', more <+: rest → Spells (word ++ more) l' → more = []
  whole : ∀ c ∈ word.getLast?, isWordChar c = true → ∀ d ∈ rest.head?, isWordChar d = false

/-- The number that a word denotes, of any size. -/
inductive Number : List Char → Nat → Prop
  | decimal {cs : List Char} {n : Nat} : Numeral 10 cs n → Number cs n
  | hexadecimal {cs : List Char} {n : Nat} : Numeral 16 cs n → Number ('0' :: 'x' :: cs) n
  | binary {cs : List Char} {n : Nat} : Numeral 2 cs n → Number ('0' :: 'b' :: cs) n

/-- A digit and the word characters after it, up to the first other character. -/
structure DigitRun (c : Char) (word tail : List Char) : Prop where
  digit : '0' ≤ c ∧ c ≤ '9'
  chars : ∀ x ∈ word, isWordChar x = true
  ended : ∀ d ∈ tail.head?, isWordChar d = false

/-- An escape that cannot be read, after the characters `cs` of a string; `c` is to blame for it. -/
inductive BadEscape : (cs : List Char) → (c : Char) → (tail : List Char) → LexError → Prop
  | missing {cs content : List Char} : Quoted cs content → BadEscape cs '\\' [] .missingEscape
  | invalid {cs content tail : List Char} {e : Char} :
    Quoted cs content → (∀ x, (e, x) ∉ escapes) →
    BadEscape (cs ++ ['\\']) e tail (.invalidEscape e)

/-- Why no symbol can be read from some place on. The character `c` is to blame; `seen` stands
between that place and `c`, and the text ends with `tail`. -/
inductive Stuck : (seen : List Char) → (c : Char) → (tail : List Char) → LexError → Prop
  | comment {body : List Char} :
    ¬ ['*', '/'] <:+: body → Stuck [] '/' ('*' :: body) .unterminatedComment
  | quote {cs content : List Char} : Quoted cs content → Stuck [] '"' cs .unterminatedString
  | escape {cs tail : List Char} {c : Char} {e : LexError} :
    BadEscape cs c tail e → Stuck ('"' :: cs) c tail e
  | integer {c : Char} {word tail : List Char} :
    DigitRun c word tail → (∀ n, ¬ Number (c :: word) n) →
    Stuck [] c (word ++ tail) .invalidInteger
  | range {c : Char} {word tail : List Char} {n : Nat} :
    DigitRun c word tail → Number (c :: word) n → 2 ^ 32 ≤ n →
    Stuck [] c (word ++ tail) (.integerOutOfRange (String.ofList (c :: word)))
  | unknown {c : Char} {tail : List Char} :
    isBlank c = false → (∀ cs l, ¬ Spells (c :: cs) l) → Stuck [] c tail (.locked c)

/-- The outcome `s` accounts for all characters of `text`, which stands after `before`. -/
inductive Tiled : (before text : List Char) → (s : Scanned) → Prop
  | finished {before gap : List Char} : LastGap gap → Tiled before gap ⟨[], none⟩
  | token {before gap word rest : List Char} {l : Lexeme} {s : Scanned} :
    Gap gap → Heads word rest l → Tiled (before ++ gap ++ word) rest s →
    Tiled before (gap ++ word ++ rest) (s.cons ⟨l, placeAfter (before ++ gap)⟩)
  | stopped {before gap seen tail : List Char} {c : Char} {e : LexError} :
    Gap gap → Stuck seen c tail e →
    Tiled before (gap ++ seen ++ c :: tail) ⟨[], some ⟨placeAfter (before ++ gap ++ seen), e⟩⟩

theorem Gap.append {gap gap' : List Char} (h : Gap gap) (h' : Gap gap') : Gap (gap ++ gap') := by
  induction h with
  | nil => exact h'
  | blank hb _ ih => exact .blank hb ih
  | line hbody _ ih => simpa using Gap.line hbody ih
  | block hbody _ ih => simpa using Gap.block hbody ih

/-- A gap before a tiled text belongs to the tiling. -/
theorem Tiled.skip {before gap text : List Char} {s : Scanned} (hg : Gap gap)
    (h : Tiled (before ++ gap) text s) : Tiled before (gap ++ text) s := by
  cases h with
  | finished hlast =>
    refine .finished ?_
    cases hlast with
    | gap hgap => exact .gap (hg.append hgap)
    | line hgap hbody => simpa using LastGap.line (hg.append hgap) hbody
  | token hgap hheads hrest =>
    rw [List.append_assoc before] at hrest
    simpa using Tiled.token (hg.append hgap) hheads hrest
  | stopped hgap hstop =>
    simpa using @Tiled.stopped before _ _ _ _ _ (hg.append hgap) hstop

/-! ### Symbols by their first character -/

/-- Every symbol is a word, an integer, a string or a sign, and its first character tells which. -/
inductive Shape : List Char → Prop
  | word {c : Char} {cs : List Char} :
    isWordStart c = true → (∀ x ∈ cs, isWordChar x = true) → Shape (c :: cs)
  | integer {c : Char} {cs : List Char} :
    ('0' ≤ c && c ≤ '9') = true → (∀ x ∈ cs, isWordChar x = true) → Shape (c :: cs)
  | text {cs content : List Char} : Quoted cs content → Shape ('"' :: cs ++ ['"'])
  | sign {cs : List Char} {l : Lexeme} : (cs, l) ∈ Token.signs → Shape cs

namespace Token

theorem shape_of_isWord {word : List Char} (h : isWord word = true) : Shape word := by
  cases word with
  | nil => cases h
  | cons c cs =>
    obtain ⟨hc, hcs⟩ : isWordStart c = true ∧ ∀ x ∈ cs, isWordChar x = true := by
      simpa [isWord] using h
    exact .word hc hcs

theorem shape_of_numeral {n : Nat} {cs : List Char} (h : Numeral 10 cs n) : Shape cs := by
  obtain ⟨c, cs, rfl⟩ := List.exists_cons_of_ne_nil (mem_numeral h).1
  exact .integer (digit_of_numeral h)
    fun x hx => isWordChar_of_mem_numeral h x (List.mem_cons_of_mem c hx)

theorem shape_of_spells {word : List Char} {l : Lexeme} (h : Spells word l) : Shape word := by
  have hbase : ∀ {base n : Nat} {cs : List Char}, Numeral base cs n → ∀ b, isWordChar b = true →
      Shape ('0' :: b :: cs) := fun hn b hb =>
    .integer (by decide) (List.forall_mem_cons.mpr ⟨hb, isWordChar_of_mem_numeral hn⟩)
  cases h with
  | keyword k => exact shape_of_isWord (keywords_read k k.mem_all).1
  | primitive p => exact shape_of_isWord (primitives_read p p.mem_all).1
  | operator op => exact .sign (operator_mem_signs op)
  | mark m => exact .sign (mark_mem_signs m)
  | name hc hcs => exact .word hc hcs
  | decimal hn => exact shape_of_numeral hn
  | hexadecimal hn => exact hbase hn 'x' (by decide +kernel)
  | binary hn => exact hbase hn 'b' (by decide +kernel)
  | text hq => exact .text hq

/-! ### Integers -/

theorem mem_digitValues {base d : Nat} {c : Char} (h : digit? base c = some d) :
    (c, d) ∈ digitValues ∧ d < base := by
  have hrange : ∀ lo hi : Char, ∀ add : Nat,
      (∀ n ∈ List.range' lo.toNat (hi.toNat + 1 - lo.toNat),
        (Char.ofNat n, n - lo.toNat + add) ∈ digitValues) →
      lo ≤ c ∧ c ≤ hi → (c, c.toNat - lo.toNat + add) ∈ digitValues := by
    intro lo hi add hall ⟨hlo, hhi⟩
    have hlo : lo.toNat ≤ c.toNat := hlo
    have hhi : c.toNat ≤ hi.toNat := hhi
    have hmem := hall c.toNat (List.mem_range'_1.mpr (by omega))
    rwa [Char.ofNat_toNat] at hmem
  obtain ⟨hvalue, hd⟩ := Option.filter_eq_some_iff.mp h
  refine ⟨?_, by simpa using hd⟩
  split at hvalue
  · next hc =>
    cases hvalue
    exact hrange '0' '9' 0 (by decide) (by simpa using hc)
  split at hvalue
  · next hc =>
    cases hvalue
    exact hrange 'a' 'f' 10 (by decide) (by simpa using hc)
  split at hvalue
  · next hc =>
    cases hvalue
    exact hrange 'A' 'F' 10 (by decide) (by simpa using hc)
  · cases hvalue

theorem numeral_append {base m n : Nat} {front cs : List Char} (h : Numeral base front m)
    (hd : digits? base m cs = some n) : Numeral base (front ++ cs) n := by
  induction cs generalizing front m with
  | nil =>
    cases hd
    simpa using h
  | cons c cs ih =>
    rw [digits?] at hd
    split at hd
    · next d hc =>
      obtain ⟨hmem, hlt⟩ := mem_digitValues hc
      simpa using ih (h.snoc hmem hlt) hd
    · cases hd

/-- The digits of a base that can be read are the numerals of that base. -/
theorem numeral_iff {base n : Nat} {cs : List Char} :
    Numeral base cs n ↔ cs ≠ [] ∧ digits? base 0 cs = some n := by
  refine ⟨fun h => ⟨(mem_numeral h).1, digits?_numeral h⟩, fun ⟨hne, hd⟩ => ?_⟩
  obtain ⟨c, cs, rfl⟩ := List.exists_cons_of_ne_nil hne
  rw [digits?] at hd
  split at hd
  · next d hc =>
    rw [Nat.zero_mul, Nat.zero_add] at hd
    obtain ⟨hmem, hlt⟩ := mem_digitValues hc
    exact numeral_append (.digit hmem hlt) hd
  · cases hd

theorem number_iff {n : Nat} {word : List Char} :
    Number word n ↔ Numeral (splitBase word).1 (splitBase word).2 n := by
  constructor
  · intro h
    cases h with
    | decimal hn => rwa [splitBase_decimal hn]
    | hexadecimal hn | binary hn => exact hn
  · intro h
    unfold splitBase at h
    split at h
    · exact .hexadecimal h
    · exact .binary h
    · exact .decimal h

theorem spells_of_number {n : Nat} {word : List Char} (h : Number word n) (hn : n < 2 ^ 32) :
    Spells word (.integer n) := by
  cases h with
  | decimal h => exact .decimal h hn
  | hexadecimal h => exact .hexadecimal h hn
  | binary h => exact .binary h hn

/-- The reading of a word as an integer, with both ways to fail. -/
theorem integer_cases (word : List Char) :
    (∃ n, Number word n ∧ n < 2 ^ 32 ∧ integer word = .ok (.integer n)) ∨
    (∃ n, Number word n ∧ 2 ^ 32 ≤ n ∧
      integer word = .error (.integerOutOfRange (String.ofList word))) ∨
    ((∀ n, ¬ Number word n) ∧ integer word = .error .invalidInteger) := by
  simp only [number_iff, numeral_iff]
  unfold integer
  split
  · next base hs => simp [hs]
  · next base digits hne hs =>
    simp only [hs]
    cases hd : digits? base 0 digits with
    | none => simp
    | some n =>
      by_cases hle : n ≤ maxInteger
      · exact .inl ⟨n, ⟨hne, rfl⟩, Nat.lt_succ_of_le hle, by simp [hle]⟩
      · exact .inr (.inl ⟨n, ⟨hne, rfl⟩, Nat.lt_of_not_le hle, by simp [hle]⟩)

/-! ### Strings -/

theorem escape?_eq_some {e c : Char} (h : escape? e = some c) : (e, c) ∈ escapes := by
  unfold escape? at h
  split at h <;> cases h <;> decide

theorem escape?_eq_none {e : Char} (h : escape? e = none) (c : Char) : (e, c) ∉ escapes := by
  intro hmem
  rw [escape?_of_mem hmem] at h
  cases h

theorem quoted_of_stringBody {start : Position} {gs after : List Glyph} {content : List Char}
    (h : stringBody start gs = .ok (content, after)) :
    ∃ cs, Quoted cs content ∧ chars gs = cs ++ '"' :: chars after := by
  fun_induction stringBody start gs generalizing content with
  | case1 | case3 | case4 | case6 | case8 => cases h
  | case2 g rest hq =>
    cases h
    exact ⟨[], .nil, by simp [chars, eq_of_beq hq]⟩
  | case5 g hq he e tail c hc content' after' hr ih =>
    cases h
    obtain ⟨cs, hcs, htail⟩ := ih hr
    exact ⟨_, .escaped (escape?_eq_some hc) hcs, by
      simpa [chars, eq_of_beq he] using htail⟩
  | case7 g rest hq he content' after' hr ih =>
    cases h
    obtain ⟨cs, hcs, hrest⟩ := ih hr
    exact ⟨_, .raw (by simpa using hq) (by simpa using he) hcs, by simpa [chars] using hrest⟩

end Token

/-- An escape stays bad with more of the string before it. -/
theorem BadEscape.after {cs tail : List Char} {c : Char} {e : LexError} (h : BadEscape cs c tail e)
    (front : List Char)
    (hf : ∀ cs content, Quoted cs content → ∃ content', Quoted (front ++ cs) content') :
    BadEscape (front ++ cs) c tail e := by
  cases h with
  | missing hq =>
    obtain ⟨content, hq⟩ := hf _ _ hq
    exact .missing hq
  | invalid hq he =>
    obtain ⟨content, hq⟩ := hf _ _ hq
    rw [← List.append_assoc]
    exact .invalid hq he

/-- Why a string opened at `start` cannot be read: the text ends in it, or an escape in it is bad. -/
inductive StringFault (start : Position) : List Glyph → LexFault → Prop
  | unterminated {gs : List Glyph} {content : List Char} :
    Quoted (chars gs) content → StringFault start gs ⟨start, .unterminatedString⟩
  | escape {seen rest : List Glyph} {g : Glyph} {e : LexError} :
    BadEscape (chars seen) g.char (chars rest) e →
    StringFault start (seen ++ g :: rest) ⟨g.position, e⟩

theorem StringFault.after {start : Position} {gs : List Glyph} {f : LexFault}
    (h : StringFault start gs f) (front : List Glyph)
    (hf : ∀ cs content, Quoted cs content → ∃ content', Quoted (chars front ++ cs) content') :
    StringFault start (front ++ gs) f := by
  have hchars : ∀ gs, chars (front ++ gs) = chars front ++ chars gs := fun _ => List.map_append
  cases h with
  | unterminated hq =>
    obtain ⟨content, hq⟩ := hf _ _ hq
    exact .unterminated (by rwa [hchars])
  | escape hbad =>
    rw [← List.append_assoc]
    exact .escape (by rw [hchars]; exact hbad.after _ hf)

namespace Token

theorem fault_of_stringBody {start : Position} {gs : List Glyph} {f : LexFault}
    (h : stringBody start gs = .error f) : StringFault start gs f := by
  fun_induction stringBody start gs with
  | case1 =>
    cases h
    exact .unterminated .nil
  | case2 | case5 | case7 => cases h
  | case3 g hq he =>
    cases h
    refine @StringFault.escape _ [] _ _ _ ?_
    rw [eq_of_beq he]
    exact .missing .nil
  | case4 g hq he e tail hc =>
    cases h
    refine @StringFault.escape _ [g] _ _ _ ?_
    simp only [chars, List.map_cons, List.map_nil, eq_of_beq he]
    exact .invalid .nil (escape?_eq_none hc)
  | case6 g hq he e tail c hc f' hr ih =>
    cases h
    refine (ih hr).after [g, e] fun cs content hcs => ⟨c :: content, ?_⟩
    simpa [chars, eq_of_beq he] using hcs.escaped (escape?_eq_some hc)
  | case8 g rest hq he f' hr ih =>
    cases h
    refine (ih hr).after [g] fun cs content hcs => ⟨g.char :: content, ?_⟩
    exact hcs.raw (by simpa using hq) (by simpa using he)

/-! ### Comments -/

theorem afterLine_cases (gs : List Glyph) :
    (∃ body, '\n' ∉ body ∧ chars gs = body ++ '\n' :: chars (afterLine gs)) ∨
      '\n' ∉ chars gs ∧ afterLine gs = [] := by
  induction gs with
  | nil => exact .inr ⟨List.not_mem_nil, rfl⟩
  | cons g rest ih =>
    unfold afterLine
    split
    · next hg => exact .inl ⟨[], List.not_mem_nil, by simp [chars, eq_of_beq hg]⟩
    · next hg =>
      have hne : '\n' ≠ g.char := fun heq => hg (by simp [← heq])
      rcases ih with ⟨body, hbody, hrest⟩ | ⟨hrest, hafter⟩
      · refine .inl ⟨g.char :: body, by simp [hne, hbody], ?_⟩
        simpa [chars] using hrest
      · exact .inr ⟨by simpa [chars, hne] using hrest, hafter⟩

theorem afterBlock?_cases (gs : List Glyph) :
    (∃ body after, afterBlock? gs = some after ∧ ¬ ['*', '/'] <:+: body ∧
      chars gs = body ++ '*' :: '/' :: chars after) ∨
    afterBlock? gs = none ∧ ¬ ['*', '/'] <:+: chars gs := by
  induction gs with
  | nil => exact .inr ⟨rfl, by simp [chars]⟩
  | cons g rest ih =>
    cases rest with
    | nil => exact .inr ⟨rfl, fun hin => absurd hin.length_le (by simp [chars])⟩
    | cons k tail =>
      by_cases hclose : g.char = '*' ∧ k.char = '/'
      · exact .inl ⟨[], tail, by simp [afterBlock?, hclose], by simp, by simp [chars, hclose]⟩
      -- A comment closed across the first two characters would have been seen here.
      have hopen : ∀ cs, cs <+: chars (k :: tail) → ¬ ['*', '/'] <:+: cs →
          ¬ ['*', '/'] <:+: g.char :: cs := by
        intro cs hcs hnot hin
        rcases List.infix_cons_iff.mp hin with hpre | hin
        · obtain ⟨hstar, hslash⟩ := List.cons_prefix_cons.mp hpre
          have hk := (List.cons_prefix_cons.mp (hslash.trans hcs)).1
          exact hclose ⟨hstar.symm, hk.symm⟩
        · exact hnot hin
      have hnext : afterBlock? (g :: k :: tail) = afterBlock? (k :: tail) := by
        rw [afterBlock?]
        simp [hclose]
      rw [hnext]
      rcases ih with ⟨body, after, hafter, hbody, hrest⟩ | ⟨hafter, hrest⟩
      · refine .inl ⟨g.char :: body, after, hafter, hopen body ?_ hbody, congrArg (g.char :: ·) hrest⟩
        rw [hrest]
        exact List.prefix_append _ _
      · exact .inr ⟨hafter, hopen _ (List.prefix_refl _) hrest⟩

/-! ### What a step finds -/

/-- What a step finds in the glyphs from a place on: a gap, the symbol that stands there, or a
character at which nothing can be read. -/
def Step.Finds (gs : List Glyph) : Step → Prop
  | .skip after => (∃ gap, Gap gap ∧ chars gs = gap ++ chars after) ∨ LastGap (chars gs) ∧ after = []
  | .read t after => ∃ word, Heads word (chars after) t.lexeme ∧ chars gs = word ++ chars after
  | .fail f => ∃ seen g rest, gs = seen ++ g :: rest ∧ f.position = g.position ∧
      Stuck (chars seen) g.char (chars rest) f.cause

theorem pair_of_isPrefixOf {a b : Char} {g : Glyph} {rest : List Glyph}
    (h : [a, b].isPrefixOf (chars ((g :: rest).take 2)) = true) :
    g.char = a ∧ ∃ k tail, rest = k :: tail ∧ k.char = b := by
  cases rest with
  | nil => simp [chars] at h
  | cons k tail =>
    obtain ⟨ha, hb⟩ : a = g.char ∧ b = k.char := by simpa [chars, List.isPrefixOf] using h
    exact ⟨ha.symm, k, tail, rfl, hb.symm⟩

theorem solid_of_tests {g : Glyph} {rest : List Glyph} (hblank : isBlank g.char = false)
    (hline : ['/', '/'].isPrefixOf (chars ((g :: rest).take 2)) = false)
    (hblock : ['/', '*'].isPrefixOf (chars ((g :: rest).take 2)) = false) :
    Solid (chars (g :: rest)) := by
  have htake : ∀ b, ['/', b].isPrefixOf (chars ((g :: rest).take 2)) = false →
      ¬ ['/', b] <+: chars (g :: rest) := by
    intro b htest hpre
    have hpre : ['/', b] <+: chars ((g :: rest).take 2) := by
      rw [chars, List.map_take]
      exact List.prefix_take_iff.mpr ⟨hpre, Nat.le_refl 2⟩
    rw [List.isPrefixOf_iff_prefix.mpr hpre] at htest
    cases htest
  exact ⟨by simpa [chars] using hblank, htake _ hline, htake _ hblock⟩

theorem finds_line {g k : Glyph} {tail : List Glyph} (hg : g.char = '/') (hk : k.char = '/') :
    (Step.skip (afterLine tail)).Finds (g :: k :: tail) := by
  have hchars : chars (g :: k :: tail) = '/' :: '/' :: chars tail := by simp [chars, hg, hk]
  unfold Step.Finds
  rw [hchars]
  rcases afterLine_cases tail with ⟨body, hbody, htail⟩ | ⟨hbody, hafter⟩
  · exact .inl ⟨_, .line hbody .nil, by simp [htail]⟩
  · exact .inr ⟨.line .nil hbody, hafter⟩

theorem finds_block {g k : Glyph} {tail : List Glyph} (hg : g.char = '/') (hk : k.char = '*') :
    (match afterBlock? tail with
      | some after => Step.skip after
      | none => Step.fail ⟨g.position, .unterminatedComment⟩).Finds (g :: k :: tail) := by
  rcases afterBlock?_cases tail with ⟨body, after, hafter, hbody, htail⟩ | ⟨hafter, htail⟩
  · rw [hafter]
    exact .inl ⟨_, .block hbody .nil, by simpa [chars, hg, hk] using htail⟩
  · rw [hafter]
    refine ⟨[], g, k :: tail, rfl, rfl, ?_⟩
    simpa [chars, hg, hk] using Stuck.comment htail

/-! ### Words and integers -/

theorem isWordChar_of_shape {c : Char} {cs : List Char} (h : Shape (c :: cs))
    (hc : isWordChar c = true) : ∀ x ∈ cs, isWordChar x = true := by
  have hsigns : ∀ entry ∈ signs, entry.1.head?.all (!isWordChar ·) = true := by decide +kernel
  cases h with
  | word _ hcs | integer _ hcs => exact hcs
  | text => exact absurd hc (by decide +kernel)
  | sign hmem => exact absurd (hsigns _ hmem) (by simp [hc])

/-- A run of word characters that spells a symbol is as long as the symbol can be. -/
theorem heads_of_run {c : Char} {word tail : List Char} {l : Lexeme}
    (hspells : Spells (c :: word) l) (hsolid : Solid (c :: word ++ tail)) (hc : isWordChar c = true)
    (hended : ∀ d ∈ tail.head?, isWordChar d = false) : Heads (c :: word) tail l where
  solid := hsolid
  spells := hspells
  longest more l' hmore hlong := by
    cases more with
    | nil => rfl
    | cons d more =>
      obtain ⟨rest, rfl⟩ := hmore
      have hd := isWordChar_of_shape (shape_of_spells hlong) hc d (by simp)
      exact absurd (hended d rfl) (by simp [hd])
  whole _ _ _ := hended

theorem word_run {p : Glyph → Bool} (hp : ∀ g, p g = isWordChar g.char) {g : Glyph}
    (rest : List Glyph) (hg : isWordChar g.char = true) :
    ∃ word, chars ((g :: rest).takeWhile p) = g.char :: word ∧ (∀ x ∈ word, isWordChar x = true) ∧
      chars (g :: rest) = g.char :: word ++ chars ((g :: rest).dropWhile p) ∧
      ∀ d ∈ (chars ((g :: rest).dropWhile p)).head?, isWordChar d = false := by
  obtain rfl : p = isWordChar ∘ Glyph.char := funext hp
  unfold chars
  rw [← List.takeWhile_map, ← List.dropWhile_map, List.map_cons, List.takeWhile_cons, if_pos hg]
  refine ⟨_, rfl, fun x hx => List.all_eq_true.mp List.all_takeWhile x hx, ?_, fun d hd => ?_⟩
  · rw [List.dropWhile_cons, if_pos hg, List.cons_append, List.takeWhile_append_dropWhile]
  · have hstop := List.head?_dropWhile_not isWordChar (g.char :: rest.map Glyph.char)
    rwa [hd] at hstop

theorem spells_ofWord {c : Char} {cs : List Char} (hc : isWordStart c = true)
    (hcs : ∀ x ∈ cs, isWordChar x = true) :
    Spells (c :: cs) (.ofWord (String.ofList (c :: cs))) := by
  unfold Lexeme.ofWord
  split
  · next p hp =>
    have hname : p.name = String.ofList (c :: cs) := by simpa using List.find?_some hp
    have hspells := Spells.primitive p
    rwa [hname, String.toList_ofList] at hspells
  · next hp =>
    split
    · next k hk =>
      have hspelling : k.spelling = String.ofList (c :: cs) := by simpa using List.find?_some hk
      have hspells := Spells.keyword k
      rwa [hspelling, String.toList_ofList] at hspells
    · next hk =>
      exact .name hc hcs (Keyword.ofWord?_eq_none.mp hk) (Primitive.ofWord?_eq_none.mp hp)

/-! ### Strings and signs -/

theorem quoted_of_shape {cs : List Char} (h : Shape ('"' :: cs)) :
    ∃ body content, Quoted body content ∧ cs = body ++ ['"'] := by
  have hsigns : ∀ entry ∈ signs, '"' ∉ entry.1.head? := by decide
  generalize hall : '"' :: cs = all at h
  cases h with
  | word hc | integer hc =>
    cases hall
    exact absurd hc (by decide +kernel)
  | text hq =>
    cases hall
    exact ⟨_, _, hq, rfl⟩
  | sign hmem =>
    subst hall
    exact absurd rfl (hsigns _ hmem)

/-- A closing quote ends a string for good. -/
theorem heads_of_quoted {cs content tail : List Char} (h : Quoted cs content) :
    Heads ('"' :: cs ++ ['"']) tail (.text (String.ofList content)) where
  solid := .of_head (by decide) (by decide)
  spells := .text h
  longest more l' _ hlong := by
    obtain ⟨body, _, hbody, heq⟩ := quoted_of_shape (shape_of_spells hlong)
    -- Both readings are what the same function answers for the same text.
    have hchars : chars (locate .start (cs ++ '"' :: more)) = cs ++ '"' :: more := chars_locate _ _
    have hchars' : chars (locate .start (cs ++ '"' :: more)) = body ++ '"' :: [] :=
      hchars.trans (by simpa using heq)
    obtain ⟨after, hread, hafter⟩ := stringBody_quoted .start h hchars
    obtain ⟨after', hread', hafter'⟩ := stringBody_quoted .start hbody hchars'
    rw [hread] at hread'
    cases hread'
    exact hafter.symm.trans hafter'
  whole c hc hword := by
    obtain rfl : '"' = c := by simpa only [List.getLast?_concat, Option.mem_some] using hc
    exact absurd hword (by decide +kernel)

theorem mem_signs_of_shape {c : Char} {cs : List Char} (h : Shape (c :: cs))
    (hc : opensSign c = true) : ∃ l, (c :: cs, l) ∈ signs := by
  obtain ⟨-, hdigit, hquote, hstart⟩ := opensSign_iff.mp hc
  cases h with
  | word hw => simp [hstart] at hw
  | integer hd => simp [hdigit] at hd
  | text => simp at hquote
  | sign hmem => exact ⟨_, hmem⟩

theorem spells_of_mem_signs {cs : List Char} {l : Lexeme} (h : (cs, l) ∈ signs) : Spells cs l := by
  have hforms : ∀ entry ∈ signs, entry.1 = entry.2.describe.toList ∧
      (entry.2 matches .operator _ | .mark _) := by decide
  obtain ⟨rfl : cs = l.describe.toList, hkind⟩ := hforms _ h
  cases l with
  | operator op => exact .operator op
  | mark m => exact .mark m
  | _ => cases hkind

/-- The sign that is found is the longest. -/
theorem heads_of_sign {cs word tail : List Char} {l : Lexeme} (h : sign? (cs.take 2) = some (word, l))
    (hcs : cs = word ++ tail) (hsolid : Solid cs) : Heads word tail l where
  solid := hcs ▸ hsolid
  spells := spells_of_mem_signs (List.mem_of_find?_eq_some h)
  longest more l' hmore hlong := by
    have hmem : (word, l) ∈ signs := List.mem_of_find?_eq_some h
    obtain ⟨c, word, rfl⟩ := List.exists_cons_of_ne_nil (sound_signs _ hmem).1
    have hopens : opensSign c = true := by simpa using (signs_forms _ hmem).2.2.2.1
    obtain ⟨l'', hlonger⟩ := mem_signs_of_shape (shape_of_spells hlong) hopens
    obtain ⟨hfound, hlen, -⟩ := signs_forms _ hlonger
    cases more with
    | nil => rfl
    | cons d more =>
      -- Two characters are looked at, and a longer sign would have them both.
      have hpre : c :: word ++ d :: more <+: cs := by
        rw [hcs]
        exact (List.prefix_append_right_inj _).mpr hmore
      have htwo : (c :: word ++ d :: more).length = 2 := hlen.resolve_left (by simp)
      have htake := List.prefix_iff_eq_take.mp hpre
      rw [htwo] at htake
      rw [← htake] at h
      simpa using hfound.symm.trans h
  whole c hc hword := by
    have hsigns : ∀ entry ∈ signs, entry.1.getLast?.all (!isWordChar ·) = true := by decide +kernel
    have hlast : word.getLast? = some c := hc
    exact absurd (hsigns _ (List.mem_of_find?_eq_some h)) (by simp [hlast, hword])

theorem not_spells_of_sign?_eq_none {c : Char} {cs : List Char} (h : sign? ((c :: cs).take 2) = none)
    (hc : opensSign c = true) (more : List Char) (l : Lexeme) : ¬ Spells (c :: more) l := by
  have hshort : ∀ entry ∈ signs, ∃ short ∈ signs, short.1 = entry.1.take 1 := by decide
  intro hspells
  obtain ⟨l', hmem⟩ := mem_signs_of_shape (shape_of_spells hspells) hc
  obtain ⟨short, hmem, hform⟩ := hshort _ hmem
  exact absurd (List.find?_eq_none.mp h short hmem) (by simp [hform, List.isPrefixOf])

/-! ### One step -/

theorem finds_integer {p : Glyph → Bool} (hp : ∀ g, p g = isWordChar g.char) {g : Glyph}
    {rest : List Glyph} (hsolid : Solid (chars (g :: rest)))
    (hg : ('0' ≤ g.char && g.char ≤ '9') = true) :
    (match integer (chars ((g :: rest).takeWhile p)) with
      | .ok l => Step.read ⟨l, g.position⟩ ((g :: rest).dropWhile p)
      | .error e => Step.fail ⟨g.position, e⟩).Finds (g :: rest) := by
  have hc := isWordChar_of_digit hg
  obtain ⟨word, hword, hchars, hall, hended⟩ := word_run hp rest hc
  have hrest : chars rest = word ++ chars ((g :: rest).dropWhile p) := (List.cons.inj hall).2
  have hrun : DigitRun g.char word (chars ((g :: rest).dropWhile p)) :=
    ⟨by simpa using hg, hchars, hended⟩
  rw [hword]
  rcases integer_cases (g.char :: word) with
    ⟨n, hn, hlt, hread⟩ | ⟨n, hn, hle, hread⟩ | ⟨hnone, hread⟩
  · rw [hread]
    exact ⟨_, heads_of_run (spells_of_number hn hlt) (hall ▸ hsolid) hc hended, hall⟩
  · rw [hread]
    exact ⟨[], g, rest, rfl, rfl, hrest ▸ .range hrun hn hle⟩
  · rw [hread]
    exact ⟨[], g, rest, rfl, rfl, hrest ▸ .integer hrun hnone⟩

theorem finds_text {g : Glyph} {rest : List Glyph} (hg : g.char = '"') :
    (match stringBody g.position rest with
      | .ok (content, after) => Step.read ⟨.text (String.ofList content), g.position⟩ after
      | .error f => Step.fail f).Finds (g :: rest) := by
  cases hread : stringBody g.position rest with
  | ok result =>
    obtain ⟨content, after⟩ := result
    obtain ⟨cs, hcs, hrest⟩ := quoted_of_stringBody hread
    exact ⟨_, heads_of_quoted hcs, by simpa [chars, hg] using hrest⟩
  | error f =>
    cases fault_of_stringBody hread with
    | unterminated hq => exact ⟨[], g, rest, rfl, rfl, hg ▸ .quote hq⟩
    | @escape seen rest k e hbad =>
      refine ⟨g :: seen, k, rest, rfl, rfl, ?_⟩
      rw [chars, List.map_cons, hg]
      exact .escape hbad

theorem finds_word {p : Glyph → Bool} (hp : ∀ g, p g = isWordChar g.char) {g : Glyph}
    {rest : List Glyph} (hsolid : Solid (chars (g :: rest))) (hg : isWordStart g.char = true) :
    (Step.read ⟨.ofWord (String.ofList (chars ((g :: rest).takeWhile p))), g.position⟩
      ((g :: rest).dropWhile p)).Finds (g :: rest) := by
  have hc := isWordChar_of_isWordStart hg
  obtain ⟨word, hword, hchars, hall, hended⟩ := word_run hp rest hc
  rw [hword]
  exact ⟨_, heads_of_run (spells_ofWord hg hchars) (hall ▸ hsolid) hc hended, hall⟩

theorem finds_sign {g : Glyph} {rest : List Glyph} (hsolid : Solid (chars (g :: rest)))
    (hg : opensSign g.char = true) :
    (match sign? (chars ((g :: rest).take 2)) with
      | some (spelling, l) => Step.read ⟨l, g.position⟩ ((g :: rest).drop spelling.length)
      | none => Step.fail ⟨g.position, .locked g.char⟩).Finds (g :: rest) := by
  have htake : chars ((g :: rest).take 2) = (chars (g :: rest)).take 2 := List.map_take
  rw [htake]
  cases hsign : sign? ((chars (g :: rest)).take 2) with
  | some entry =>
    obtain ⟨word, l⟩ := entry
    have hfits : word.isPrefixOf ((chars (g :: rest)).take 2) = true :=
      List.find?_some (p := fun entry : List Char × Lexeme => entry.1.isPrefixOf _) hsign
    have hpre := (List.isPrefixOf_iff_prefix.mp hfits).trans (List.take_prefix _ _)
    have hall : chars (g :: rest) = word ++ chars ((g :: rest).drop word.length) := by
      rw [chars, chars, List.map_drop]
      exact (List.prefix_iff_eq_append.mp hpre).symm
    exact ⟨word, heads_of_sign hsign hall hsolid, hall⟩
  | none =>
    have hblank : isBlank g.char = false := hsolid.visible _ rfl
    exact ⟨[], g, rest, rfl, rfl, .unknown hblank (not_spells_of_sign?_eq_none hsign hg)⟩

theorem step_finds (g : Glyph) (rest : List Glyph) : (step g rest).Finds (g :: rest) := by
  unfold step
  dsimp only
  split
  · next hblank => exact .inl ⟨[g.char], .blank hblank .nil, rfl⟩
  next hblank =>
  split
  · next hline =>
    obtain ⟨hg, k, tail, rfl, hk⟩ := pair_of_isPrefixOf hline
    exact finds_line hg hk
  next hline =>
  split
  · next hblock =>
    obtain ⟨hg, k, tail, rfl, hk⟩ := pair_of_isPrefixOf hblock
    exact finds_block hg hk
  next hblock =>
  have hsolid : Solid (chars (g :: rest)) :=
    solid_of_tests (Bool.eq_false_iff.mpr hblank) (Bool.eq_false_iff.mpr hline)
      (Bool.eq_false_iff.mpr hblock)
  split
  · next hdigit => exact finds_integer (fun _ => rfl) hsolid hdigit
  next hdigit =>
  split
  · next hquote => exact finds_text (eq_of_beq hquote)
  next hquote =>
  split
  · next hstart => exact finds_word (fun _ => rfl) hsolid hstart
  next hstart =>
  have hopens : opensSign g.char = true := opensSign_iff.mpr
    ⟨Bool.eq_false_iff.mpr hblank, Bool.eq_false_iff.mpr hdigit, Bool.eq_false_iff.mpr hquote,
      Bool.eq_false_iff.mpr hstart⟩
  exact finds_sign hsolid hopens

end Token

/-! ### The whole text -/

theorem scanGlyphs_of_fail {g : Glyph} {rest : List Glyph} {f : LexFault}
    (h : Token.step g rest = .fail f) : scanGlyphs (g :: rest) = ⟨[], some f⟩ := by
  rw [scanGlyphs, List.length_cons, scanSteps, h]

/-- One step accounts for what it takes, if the scanner accounts for what it leaves. -/
theorem tiled_of_step {before : List Char} {g : Glyph} {rest : List Glyph}
    (hgs : locate (placeAfter before) (chars (g :: rest)) = g :: rest)
    (hleft : ∀ word after, after <:+ rest → chars (g :: rest) = word ++ chars after →
      Tiled (before ++ word) (chars after) (scanGlyphs after)) :
    Tiled before (chars (g :: rest)) (scanGlyphs (g :: rest)) := by
  have hfair := Token.step_fair g rest
  have hfinds := Token.step_finds g rest
  cases hstep : Token.step g rest with
  | skip after =>
    rw [hstep] at hfair hfinds
    rw [scanGlyphs_of_skip hstep]
    rcases hfinds with ⟨gap, hgap, htext⟩ | ⟨hlast, rfl⟩
    · rw [htext]
      exact (hleft gap after hfair htext).skip hgap
    · exact .finished hlast
  | read t after =>
    rw [hstep] at hfair hfinds
    obtain ⟨l, p⟩ := t
    obtain ⟨-, rfl : p = g.position, hsuffix⟩ := hfair
    obtain ⟨word, hheads, htext⟩ := hfinds
    have hplace : g.position = placeAfter before := by
      simpa [chars] using @position_of_locate before _ [] rest g hgs
    have hrest := hleft word after hsuffix htext
    rw [scanGlyphs_of_read hstep, htext, hplace]
    simpa using @Tiled.token before [] word _ _ _ .nil hheads (by simpa using hrest)
  | fail f =>
    rw [hstep] at hfinds
    obtain ⟨p, e⟩ := f
    obtain ⟨seen, k, tail, hsplit, hp : p = k.position, hstuck⟩ := hfinds
    have htext : chars (g :: rest) = chars seen ++ k.char :: chars tail := by
      rw [hsplit]
      exact List.map_append
    rw [hsplit] at hgs
    rw [scanGlyphs_of_fail hstep, htext, hp, position_of_locate hgs]
    simpa using @Tiled.stopped before [] _ _ _ _ .nil hstuck

/-- From any place on, the scanner accounts for what is left of the text. -/
theorem tiled_scanGlyphs (before text : List Char) :
    Tiled before text (scanGlyphs (locate (placeAfter before) text)) := by
  induction hlen : text.length using Nat.strong_induction_on generalizing before text with
  | _ n ih =>
  subst hlen
  obtain _ | ⟨c, cs⟩ := text
  · exact .finished (.gap .nil)
  have hchars := chars_locate (placeAfter before) (c :: cs)
  obtain ⟨g, rest, hgs, -, -⟩ := chars_cons hchars
  rw [hgs] at hchars
  rw [← hchars] at hgs ih ⊢
  rw [hgs]
  refine tiled_of_step hgs fun word after hsuffix htext => ?_
  have hafter : after = locate (placeAfter (before ++ word)) (chars after) := by
    refine eq_locate_of_suffix ?_ rfl
    rw [← htext, hgs]
    exact hsuffix.trans (List.suffix_cons g rest)
  have hshort : (chars after).length < (chars (g :: rest)).length := by
    simpa [chars, Nat.lt_succ_iff] using hsuffix.length_le
  have htiled := ih _ hshort (before ++ word) (chars after) rfl
  rwa [← hafter] at htiled

/-- The scanner accounts for every character of a text. -/
theorem tiled_scan (text : String) : Tiled [] text.toList (scan text) :=
  tiled_scanGlyphs [] text.toList

example : scan "a<<= // b\n/**/\"\\q\"" =
    ⟨[⟨.name "a", ⟨1, 1⟩⟩, ⟨.operator .shiftLeft, ⟨1, 2⟩⟩, ⟨.operator .assign, ⟨1, 4⟩⟩],
      some ⟨⟨2, 7⟩, .invalidEscape 'q'⟩⟩ := by
  decide +kernel

end StoragePlan
