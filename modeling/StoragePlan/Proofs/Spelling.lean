import Mathlib.Algebra.Group.Nat.Defs
import Mathlib.Data.List.Find
import StoragePlan.Proofs.Scanning

/-!
Scanning undoes writing. A symbol may be spelled in several ways, and what stands between two symbols
is free as long as it starts with a blank; whichever way is chosen, the scanner gives back the
symbols. The relations below say what a spelling and a gap are without mention of the scanner.
-/

namespace StoragePlan

/-! ### Spellings -/

/-- The digits up to base sixteen with their values. -/
def digitValues : List (Char × Nat) :=
  [('0', 0), ('1', 1), ('2', 2), ('3', 3), ('4', 4), ('5', 5), ('6', 6), ('7', 7), ('8', 8), ('9', 9),
   ('a', 10), ('b', 11), ('c', 12), ('d', 13), ('e', 14), ('f', 15),
   ('A', 10), ('B', 11), ('C', 12), ('D', 13), ('E', 14), ('F', 15)]

/-- The positional notation of a number, with any number of zeros before it. -/
inductive Numeral (base : Nat) : List Char → Nat → Prop
  | digit {c : Char} {d : Nat} : (c, d) ∈ digitValues → d < base → Numeral base [c] d
  | snoc {cs : List Char} {n : Nat} {c : Char} {d : Nat} :
    Numeral base cs n → (c, d) ∈ digitValues → d < base → Numeral base (cs ++ [c]) (n * base + d)

/-- The letters of the escapes with the characters they stand for. -/
def escapes : List (Char × Char) :=
  [('n', '\n'), ('r', '\r'), ('t', '\t'), ('0', '\x00'), ('"', '"'), ('\\', '\\')]

/-- What may stand between the quotes for a given content. -/
inductive Quoted : List Char → List Char → Prop
  | nil : Quoted [] []
  | raw {c : Char} {cs content : List Char} :
    c ≠ '"' → c ≠ '\\' → Quoted cs content → Quoted (c :: cs) (c :: content)
  | escaped {e c : Char} {cs content : List Char} :
    (e, c) ∈ escapes → Quoted cs content → Quoted ('\\' :: e :: cs) (c :: content)

/-- The ways to write one symbol. -/
inductive Spells : List Char → Lexeme → Prop
  | keyword (k : Keyword) : Spells k.spelling.toList (.keyword k)
  | primitive (p : Primitive) : Spells p.name.toList (.primitive p)
  | operator (op : Operator) : Spells op.spelling.toList (.operator op)
  | mark (m : Mark) : Spells m.spelling.toList (.mark m)
  | name {c : Char} {cs : List Char} :
    isWordStart c = true → (∀ x ∈ cs, isWordChar x = true) →
    (∀ k : Keyword, k.spelling ≠ String.ofList (c :: cs)) →
    (∀ p : Primitive, p.name ≠ String.ofList (c :: cs)) →
    Spells (c :: cs) (.name (String.ofList (c :: cs)))
  | decimal {cs : List Char} {n : Nat} : Numeral 10 cs n → n < 2 ^ 32 → Spells cs (.integer n)
  | hexadecimal {cs : List Char} {n : Nat} :
    Numeral 16 cs n → n < 2 ^ 32 → Spells ('0' :: 'x' :: cs) (.integer n)
  | binary {cs : List Char} {n : Nat} :
    Numeral 2 cs n → n < 2 ^ 32 → Spells ('0' :: 'b' :: cs) (.integer n)
  | text {cs content : List Char} :
    Quoted cs content → Spells ('"' :: cs ++ ['"']) (.text (String.ofList content))

/-- What may stand between symbols: blanks, comments up to a line end and closed block comments. -/
inductive Gap : List Char → Prop
  | nil : Gap []
  | blank {c : Char} {cs : List Char} : isBlank c = true → Gap cs → Gap (c :: cs)
  | line {body cs : List Char} :
    '\n' ∉ body → Gap cs → Gap ('/' :: '/' :: body ++ '\n' :: cs)
  | block {body cs : List Char} :
    ¬ ['*', '/'] <:+: body → Gap cs → Gap ('/' :: '*' :: body ++ '*' :: '/' :: cs)

/-- The texts of a list of symbols that start with the first of them. -/
inductive Spelled : List Char → List Lexeme → Prop
  | nil : Spelled [] []
  | last {word : List Char} {l : Lexeme} : Spells word l → Spelled word [l]
  | cons {word gap rest : List Char} {l : Lexeme} {ls : List Lexeme} {b : Char} :
    Spells word l → isBlank b = true → Gap gap → Spelled rest ls →
    Spelled (word ++ b :: gap ++ rest) (l :: ls)

/-! ### Characters -/

/-- The code points of a list of ranges one by one. -/
def codes (ranges : List (Nat × Nat)) : List Nat :=
  ranges.flatMap fun r => List.range' r.1 (r.2 + 1 - r.1)

theorem mem_codes {ranges : List (Nat × Nat)} {n : Nat} (h : covers ranges n = true) :
    n ∈ codes ranges := by
  induction ranges with
  | nil => cases h
  | cons r rest ih =>
    obtain ⟨lo, hi⟩ := r
    unfold covers at h
    split at h
    · cases h
    · rw [codes, List.flatMap_cons, List.mem_append]
      rcases Bool.or_eq_true_iff.mp h with hle | hrest
      · left
        rw [List.mem_range'_1]
        have hhi : n ≤ hi := by simpa using hle
        omega
      · exact .inr (ih hrest)

theorem covers_of_lt {lo hi n : Nat} {rest : List (Nat × Nat)} (h : n < lo) :
    covers ((lo, hi) :: rest) n = false := by
  rw [covers, if_pos h]

theorem blankCodes_apart : ∀ n ∈ codes blankRanges,
    covers alphabeticRanges n = false ∧ covers numeralRanges n = false ∧ n ≠ 0x5F := by
  decide +kernel

/-- Blank characters are no word characters. -/
theorem isWordChar_of_isBlank {c : Char} (h : isBlank c = true) : isWordChar c = false := by
  obtain ⟨ha, hn, hu⟩ := blankCodes_apart _ (mem_codes h)
  have hne : c ≠ '_' := by
    rintro rfl
    exact hu rfl
  simp [isWordChar, isAlphanumeric, isAlphabetic, isNumeral, ha, hn, hne]

theorem isBlank_of_isWordChar {c : Char} (h : isWordChar c = true) : isBlank c = false := by
  cases hb : isBlank c with
  | false => rfl
  | true =>
    rw [isWordChar_of_isBlank hb] at h
    cases h

/-- What follows a symbol: nothing, or a blank. -/
def Ended (tail : List Char) : Prop := ∀ c ∈ tail.head?, isBlank c = true

/-- What may follow a word or a number: nothing that would go on with it. -/
def EndsWord (tail : List Char) : Prop := ∀ c ∈ tail.head?, isWordChar c = false

theorem Ended.cons {b : Char} {tail : List Char} (h : isBlank b = true) : Ended (b :: tail) := by
  simpa [Ended] using h

theorem Ended.endsWord {tail : List Char} (h : Ended tail) : EndsWord tail := fun c hc =>
  isWordChar_of_isBlank (h c hc)

theorem chars_cons {gs : List Glyph} {c : Char} {cs : List Char} (h : chars gs = c :: cs) :
    ∃ g rest, gs = g :: rest ∧ g.char = c ∧ chars rest = cs :=
  List.map_eq_cons_iff.mp h

namespace Token

/-- A word ends before the first character that is none of a word. -/
theorem word_cut {p : Glyph → Bool} (hp : ∀ g, p g = isWordChar g.char) {gs : List Glyph}
    {word tail : List Char} (h : chars gs = word ++ tail)
    (hw : ∀ c ∈ word, isWordChar c = true) (ht : EndsWord tail) :
    chars (gs.takeWhile p) = word ∧ chars (gs.dropWhile p) = tail := by
  obtain rfl : p = isWordChar ∘ Glyph.char := funext hp
  have hstop : tail.takeWhile isWordChar = [] ∧ tail.dropWhile isWordChar = tail := by
    cases tail with
    | nil => exact ⟨rfl, rfl⟩
    | cons b tail =>
      have hb := ht b rfl
      simp [hb]
  unfold chars at h ⊢
  rw [← List.takeWhile_map, ← List.dropWhile_map, h, List.takeWhile_append_of_pos hw,
    List.dropWhile_append_of_pos hw, hstop.1, hstop.2, List.append_nil]
  exact ⟨rfl, rfl⟩

/-! ### Integers -/

theorem digit?_of_mem {base d : Nat} {c : Char} (h : (c, d) ∈ digitValues) (hd : d < base) :
    digit? base c = some d := by
  have hvalue : ∀ e ∈ digitValues,
      (if '0' ≤ e.1 && e.1 ≤ '9' then some (e.1.toNat - '0'.toNat)
        else if 'a' ≤ e.1 && e.1 ≤ 'f' then some (e.1.toNat - 'a'.toNat + 10)
        else if 'A' ≤ e.1 && e.1 ≤ 'F' then some (e.1.toNat - 'A'.toNat + 10)
        else none) = some e.2 := by decide
  unfold digit?
  dsimp only
  rw [hvalue _ h]
  simp [hd]

theorem digits?_snoc {base acc n d : Nat} {cs : List Char} {c : Char}
    (h : digits? base acc cs = some n) (hc : digit? base c = some d) :
    digits? base acc (cs ++ [c]) = some (n * base + d) := by
  induction cs generalizing acc with
  | nil =>
    cases h
    simp [digits?, hc]
  | cons k cs ih =>
    simp only [List.cons_append, digits?] at h ⊢
    split at h
    · exact ih h
    · cases h

theorem digits?_numeral {base n : Nat} {cs : List Char} (h : Numeral base cs n) :
    digits? base 0 cs = some n := by
  induction h with
  | digit hc hd => simp [digits?, digit?_of_mem hc hd]
  | snoc _ hc hd ih => exact digits?_snoc ih (digit?_of_mem hc hd)

/-- The digits of a numeral. -/
theorem mem_numeral {base n : Nat} {cs : List Char} (h : Numeral base cs n) :
    cs ≠ [] ∧ ∀ c ∈ cs, ∃ d, (c, d) ∈ digitValues ∧ d < base := by
  induction h with
  | digit hc hd => simpa using ⟨_, hc, hd⟩
  | snoc _ hc hd ih =>
    refine ⟨by simp, fun c hmem => ?_⟩
    rcases List.mem_append.mp hmem with hmem | hmem
    · exact ih.2 c hmem
    · rw [List.mem_singleton.mp hmem]
      exact ⟨_, hc, hd⟩

theorem isWordChar_of_mem_numeral {base n : Nat} {cs : List Char} (h : Numeral base cs n) :
    ∀ c ∈ cs, isWordChar c = true := by
  have hvalues : ∀ e ∈ digitValues, isWordChar e.1 = true := by decide +kernel
  intro c hc
  obtain ⟨d, hmem, -⟩ := (mem_numeral h).2 c hc
  exact hvalues _ hmem

/-- A decimal numeral starts with a digit. -/
theorem digit_of_numeral {n : Nat} {c : Char} {cs : List Char} (h : Numeral 10 (c :: cs) n) :
    ('0' ≤ c && c ≤ '9') = true := by
  have hvalues : ∀ e ∈ digitValues, e.2 < 10 → ('0' ≤ e.1 && e.1 ≤ '9') = true := by decide
  obtain ⟨d, hmem, hd⟩ := (mem_numeral h).2 c List.mem_cons_self
  exact hvalues _ hmem hd

/-- Decimal digits do not look like the start of another base. -/
theorem splitBase_decimal {n : Nat} {cs : List Char} (h : Numeral 10 cs n) :
    splitBase cs = (10, cs) := by
  have hapart : ∀ e ∈ digitValues, e.2 < 10 → e.1 ≠ 'x' ∧ e.1 ≠ 'b' := by decide
  have hcs := (mem_numeral h).2
  unfold splitBase
  split
  · obtain ⟨d, hmem, hd⟩ := hcs 'x' (by simp)
    exact absurd rfl (hapart _ hmem hd).1
  · obtain ⟨d, hmem, hd⟩ := hcs 'b' (by simp)
    exact absurd rfl (hapart _ hmem hd).2
  · rfl

theorem integer_of_split {base n : Nat} {word cs : List Char} (hs : splitBase word = (base, cs))
    (h : Numeral base cs n) (hn : n < 2 ^ 32) : integer word = .ok (.integer n) := by
  obtain ⟨c, cs, rfl⟩ := List.exists_cons_of_ne_nil (mem_numeral h).1
  have hle : n ≤ maxInteger := Nat.le_of_lt_succ hn
  simp [integer, hs, digits?_numeral h, hle]

/-! ### Strings -/

theorem escape?_of_mem {e c : Char} (h : (e, c) ∈ escapes) : escape? e = some c := by
  have hread : ∀ entry ∈ escapes, escape? entry.1 = some entry.2 := by decide
  exact hread _ h

theorem stringBody_quoted (start : Position) {cs content tail : List Char} {gs : List Glyph}
    (h : Quoted cs content) (hgs : chars gs = cs ++ '"' :: tail) :
    ∃ after, stringBody start gs = .ok (content, after) ∧ chars after = tail := by
  induction h generalizing gs with
  | nil =>
    obtain ⟨g, rest, rfl, hg, hrest⟩ := chars_cons hgs
    exact ⟨rest, by unfold stringBody; simp [hg], hrest⟩
  | raw hq hb _ ih =>
    obtain ⟨g, rest, rfl, hg, hrest⟩ := chars_cons hgs
    obtain ⟨after, hbody, hafter⟩ := ih hrest
    exact ⟨after, by unfold stringBody; simp [hq, hb, hbody, hg], hafter⟩
  | escaped he _ ih =>
    obtain ⟨g, rest, rfl, hg, hrest⟩ := chars_cons hgs
    obtain ⟨e, rest, rfl, he', hrest⟩ := chars_cons hrest
    obtain ⟨after, hbody, hafter⟩ := ih hrest
    exact ⟨after, by unfold stringBody; simp [hg, he', escape?_of_mem he, hbody], hafter⟩

/-! ### Comments -/

theorem chars_afterLine {body tail : List Char} {gs : List Glyph} (hb : '\n' ∉ body)
    (h : chars gs = body ++ '\n' :: tail) : chars (afterLine gs) = tail := by
  induction body generalizing gs with
  | nil =>
    obtain ⟨g, rest, rfl, hg, hrest⟩ := chars_cons h
    simpa [afterLine, hg] using hrest
  | cons c body ih =>
    obtain ⟨g, rest, rfl, hg, hrest⟩ := chars_cons h
    have hc : g.char ≠ '\n' := by
      rintro heq
      exact hb (by simp [← hg, heq])
    simpa [afterLine, hc] using ih (fun hmem => hb (List.mem_cons_of_mem c hmem)) hrest

theorem chars_afterBlock {body tail : List Char} {gs : List Glyph} (hb : ¬ ['*', '/'] <:+: body)
    (h : chars gs = body ++ '*' :: '/' :: tail) :
    ∃ after, afterBlock? gs = some after ∧ chars after = tail := by
  induction body generalizing gs with
  | nil =>
    obtain ⟨g, rest, rfl, hg, hrest⟩ := chars_cons h
    obtain ⟨k, rest, rfl, hk, hrest⟩ := chars_cons hrest
    exact ⟨rest, by simp [afterBlock?, hg, hk], hrest⟩
  | cons c body ih =>
    obtain ⟨g, rest, rfl, hg, hrest⟩ := chars_cons h
    have hbody : ¬ ['*', '/'] <:+: body := fun hin =>
      hb (hin.trans (List.suffix_cons c body).isInfix)
    obtain ⟨after, hafter, htail⟩ := ih hbody hrest
    refine ⟨after, ?_, htail⟩
    -- The comment could only be closed here if `body` went on with a slash.
    cases rest with
    | nil => cases hafter
    | cons k rest =>
      have hopen : ¬ (g.char = '*' ∧ k.char = '/') := by
        rintro ⟨hstar, hslash⟩
        cases body with
        | nil =>
          obtain ⟨_, _, hcons, hk, -⟩ := chars_cons hrest
          cases hcons
          exact absurd (hslash.symm.trans hk) (by decide)
        | cons d body =>
          obtain ⟨_, _, hcons, hk, -⟩ := chars_cons hrest
          cases hcons
          exact hb ⟨[], body, by simp [← hg, ← hk, hstar, hslash]⟩
      rw [afterBlock?]
      simpa [hopen] using hafter

/-! ### Signs -/

/-- The characters that can be the second of a sign. -/
def secondChars : List Char := ['>', '&', '|', '<', '=']

/-- What may follow a sign: nothing that would go on with it, or make it open a comment. -/
def EndsSign (tail : List Char) : Prop := ∀ c ∈ tail.head?, c ∉ secondChars ∧ c ≠ '/' ∧ c ≠ '*'

/-- What passes a test that no character of a longer sign or a comment passes does not go on with a
sign. -/
theorem endsSign_of_test {test : Char → Bool}
    (hsigns : ('/' :: '*' :: secondChars).all (!test ·) = true) {tail : List Char}
    (h : ∀ c ∈ tail.head?, test c = true) : EndsSign tail := by
  intro c hc
  have hne : ∀ d ∈ '/' :: '*' :: secondChars, c ≠ d := by
    rintro d hd rfl
    have hfails := List.all_eq_true.mp hsigns c hd
    simp [h c hc] at hfails
  exact ⟨fun hmem => hne c (by simp [hmem]) rfl, hne '/' (by simp), hne '*' (by simp)⟩

theorem endsSign_of_ended {tail : List Char} (h : Ended tail) : EndsSign tail :=
  endsSign_of_test (by decide) h

/-- Whether a character starts a sign and nothing else. -/
def opensSign (c : Char) : Bool :=
  !isBlank c && !('0' ≤ c && c ≤ '9') && !(c == '"') && !isWordStart c

/-- Every sign is found under its one or two characters, and a slash is a sign of its own. -/
theorem signs_forms : ∀ entry ∈ signs, sign? entry.1 = some entry ∧
    (entry.1.length = 1 ∨ entry.1.length = 2) ∧ entry.1.tail.all secondChars.contains = true ∧
    entry.1.head?.all opensSign = true ∧ (entry.1.head? = some '/' → entry.1 = ['/']) := by
  decide +kernel

theorem operator_mem_signs (op : Operator) : (op.spelling.toList, .operator op) ∈ signs := by
  cases op <;> decide

theorem mark_mem_signs (m : Mark) : (m.spelling.toList, .mark m) ∈ signs := by
  cases m <;> decide

theorem opensSign_iff {c : Char} : opensSign c = true ↔ isBlank c = false ∧
    ('0' ≤ c && c ≤ '9') = false ∧ (c == '"') = false ∧ isWordStart c = false := by
  simp only [opensSign, Bool.and_eq_true, Bool.not_eq_true', and_assoc]

/-- A second character that is part of no sign is not looked at. -/
theorem sign?_pair {a c : Char} (hc : c ∉ secondChars) : sign? [a, c] = sign? [a] := by
  unfold sign?
  apply List.find?_congr
  intro entry hentry
  obtain ⟨-, hlen, htail, -⟩ := signs_forms entry hentry
  match h : entry.1 with
  | [] => simp [h] at hlen
  | [b] => simp [List.isPrefixOf]
  | b :: d :: rest =>
    have hd : d ∈ secondChars := by
      simpa using List.all_eq_true.mp htail d (by simp [h])
    have hne : d ≠ c := fun heq => hc (heq ▸ hd)
    simp [List.isPrefixOf, hne]

theorem sign?_of_mem {entry : List Char × Lexeme} {tail : List Char} (h : entry ∈ signs)
    (ht : ∀ c ∈ tail.head?, c ∉ secondChars) :
    sign? ((entry.1 ++ tail).take 2) = some entry := by
  obtain ⟨halone, hlen, -⟩ := signs_forms entry h
  match hform : entry.1 with
  | [] => simp [hform] at hlen
  | [a] =>
    rw [hform] at halone
    cases tail with
    | nil => exact halone
    | cons c tail => exact (sign?_pair (ht c rfl)).trans halone
  | a :: b :: rest =>
    obtain rfl : rest = [] := by simpa [hform] using hlen
    rw [hform] at halone
    exact halone

/-! ### One step -/

/-- Neither a blank nor a comment starts with these characters. -/
structure Solid (cs : List Char) : Prop where
  visible : ∀ c ∈ cs.head?, isBlank c = false
  notLine : ¬ ['/', '/'] <+: cs
  notBlock : ¬ ['/', '*'] <+: cs

/-- A text that starts with no slash starts with no comment. -/
theorem Solid.of_head {c : Char} {cs : List Char} (hb : isBlank c = false) (hc : c ≠ '/') :
    Solid (c :: cs) where
  visible := by simpa using hb
  notLine := by simp [Ne.symm hc]
  notBlock := by simp [Ne.symm hc]

/-- The tests of a step for blanks and comments fail on a solid text. -/
theorem Solid.tests {g : Glyph} {rest : List Glyph} (h : Solid (chars (g :: rest))) :
    isBlank g.char = false ∧ ['/', '/'].isPrefixOf (chars ((g :: rest).take 2)) = false ∧
      ['/', '*'].isPrefixOf (chars ((g :: rest).take 2)) = false := by
  have htake : ∀ cs : List Char, ¬ cs <+: chars (g :: rest) →
      cs.isPrefixOf (chars ((g :: rest).take 2)) = false := by
    intro cs hcs
    rw [Bool.eq_false_iff, ne_eq, List.isPrefixOf_iff_prefix, chars, List.map_take]
    exact fun hpre => hcs (hpre.trans (List.take_prefix 2 _))
  exact ⟨h.visible _ rfl, htake _ h.notLine, htake _ h.notBlock⟩

/-- A step reads the lexeme `l` and leaves the characters `tail`. -/
def StepReads (gs : List Glyph) (l : Lexeme) (tail : List Char) : Prop :=
  ∃ g rest after, gs = g :: rest ∧ step g rest = .read ⟨l, g.position⟩ after ∧ chars after = tail

theorem step_integer {base n : Nat} {gs : List Glyph} {c : Char} {word cs tail : List Char}
    (hgs : chars gs = c :: word ++ tail) (hc : ('0' ≤ c && c ≤ '9') = true)
    (hword : ∀ x ∈ word, isWordChar x = true) (hs : splitBase (c :: word) = (base, cs))
    (h : Numeral base cs n) (hn : n < 2 ^ 32) (ht : EndsWord tail) :
    StepReads gs (.integer n) tail := by
  obtain ⟨g, rest, rfl, rfl, hrest⟩ := chars_cons hgs
  have hb := isBlank_of_isWordChar (isWordChar_of_digit hc)
  have hslash : g.char ≠ '/' := fun heq => absurd hc (by rw [heq]; decide)
  have hsolid : Solid (chars (g :: rest)) := .of_head hb hslash
  obtain ⟨hblank, hline, hblock⟩ := hsolid.tests
  have hall : ∀ x ∈ g.char :: word, isWordChar x = true :=
    List.forall_mem_cons.mpr ⟨isWordChar_of_digit hc, hword⟩
  refine ⟨g, rest, _, rfl, ?_, (word_cut (fun _ => rfl) hgs hall ht).2⟩
  unfold step
  simp only [hblank, hline, hblock, hc, Bool.false_eq_true, if_false, if_true]
  rw [(word_cut ?_ hgs hall ht).1, integer_of_split hs h hn]
  · rfl
  · exact fun _ => rfl

theorem step_text {gs : List Glyph} {cs content tail : List Char}
    (hgs : chars gs = '"' :: cs ++ ['"'] ++ tail) (h : Quoted cs content) :
    StepReads gs (.text (String.ofList content)) tail := by
  obtain ⟨g, rest, rfl, hg, hrest⟩ := chars_cons hgs
  have hsolid : Solid (chars (g :: rest)) := by
    rw [hgs]
    exact Solid.of_head (by decide) (by decide)
  obtain ⟨hblank, hline, hblock⟩ := hsolid.tests
  have hbody : chars rest = cs ++ '"' :: tail := by simpa using hrest
  obtain ⟨after, hbody, hafter⟩ := stringBody_quoted g.position h hbody
  refine ⟨g, rest, after, rfl, ?_, hafter⟩
  have hdigit : ('0' ≤ g.char && g.char ≤ '9') = false := by
    rw [hg]
    decide
  have hquote : (g.char == '"') = true := by simp [hg]
  unfold step
  simp only [hblank, hline, hblock, hdigit, hquote, hbody, Bool.false_eq_true, if_false, if_true]

/-- No character up to the colon starts a word. -/
theorem lt_of_isWordStart {c : Char} (h : isWordStart c = true) : 0x3A < c.toNat := by
  by_contra hle
  have hlow : covers alphabeticRanges c.toNat = false := covers_of_lt (by omega)
  have hne : c ≠ '_' := by
    rintro rfl
    exact hle (by decide)
  simp [isWordStart, isAlphabetic, hlow, hne] at h

/-- Whether some characters are read as one word. -/
def isWord : List Char → Bool
  | [] => false
  | c :: cs => isWordStart c && cs.all isWordChar

theorem step_word {gs : List Glyph} {word tail : List Char} (hgs : chars gs = word ++ tail)
    (hw : isWord word = true) (ht : EndsWord tail) :
    StepReads gs (.ofWord (String.ofList word)) tail := by
  obtain _ | ⟨c, word⟩ := word
  · cases hw
  obtain ⟨hc, hword⟩ : isWordStart c = true ∧ ∀ x ∈ word, isWordChar x = true := by
    simpa [isWord] using hw
  obtain ⟨g, rest, rfl, rfl, -⟩ := chars_cons hgs
  have hlow := lt_of_isWordStart hc
  have hb := isBlank_of_isWordChar (isWordChar_of_isWordStart hc)
  have hslash : g.char ≠ '/' := fun heq => absurd hlow (by rw [heq]; decide)
  have hquote : (g.char == '"') = false := by
    rw [beq_eq_false_iff_ne]
    exact fun heq => absurd hlow (by rw [heq]; decide)
  have hdigit : ('0' ≤ g.char && g.char ≤ '9') = false := by
    have hnine : ¬ g.char ≤ '9' := fun hle => by
      have hcode : g.char.toNat ≤ 0x39 := hle
      omega
    simp [hnine]
  have hsolid : Solid (chars (g :: rest)) := .of_head hb hslash
  obtain ⟨hblank, hline, hblock⟩ := hsolid.tests
  have hall : ∀ x ∈ g.char :: word, isWordChar x = true :=
    List.forall_mem_cons.mpr ⟨isWordChar_of_isWordStart hc, hword⟩
  refine ⟨g, rest, _, rfl, ?_, (word_cut (fun _ => rfl) hgs hall ht).2⟩
  unfold step
  simp only [hblank, hline, hblock, hdigit, hquote, hc, Bool.false_eq_true, if_false, if_true]
  rw [(word_cut ?_ hgs hall ht).1]
  · rfl
  · exact fun _ => rfl

theorem step_sign {gs : List Glyph} {entry : List Char × Lexeme} {tail : List Char}
    (hentry : entry ∈ signs) (hgs : chars gs = entry.1 ++ tail) (ht : EndsSign tail) :
    StepReads gs entry.2 tail := by
  obtain ⟨c, word, hform⟩ : ∃ c word, entry.1 = c :: word :=
    List.exists_cons_of_ne_nil (sound_signs entry hentry).1
  obtain ⟨-, -, -, hopens, hslash⟩ := signs_forms entry hentry
  have hc : opensSign c = true := by simpa [hform] using hopens
  obtain ⟨hb, hdigit, hquote, hstart⟩ := opensSign_iff.mp hc
  have hnext : ∀ d : Char, d = '/' ∨ d = '*' → ¬ ['/', d] <+: entry.1 ++ tail := by
    -- Only the sign `/` itself starts with a slash, and no comment opens with it.
    intro d hd hpre
    have hc : c = '/' := by
      rw [hform, List.cons_append, List.cons_prefix_cons] at hpre
      exact hpre.1.symm
    rw [hslash (by rw [hform, hc, List.head?_cons]), List.singleton_append,
      List.cons_prefix_cons] at hpre
    obtain ⟨-, hline, hblock⟩ := ht d (by
      obtain ⟨more, hmore⟩ := hpre.2
      simp [← hmore])
    exact hd.elim hline hblock
  have hsolid : Solid (chars gs) := by
    rw [hgs]
    exact ⟨by simp [hform, hb], hnext _ (.inl rfl), hnext _ (.inr rfl)⟩
  obtain ⟨g, rest, rfl, rfl, -⟩ := chars_cons (hgs.trans (by rw [hform]; rfl))
  obtain ⟨hblank, hline, hblock⟩ := hsolid.tests
  have hsign : sign? (chars ((g :: rest).take 2)) = some entry := by
    rw [chars, List.map_take, ← chars, hgs]
    exact sign?_of_mem hentry fun d hd => (ht d hd).1
  refine ⟨g, rest, (g :: rest).drop entry.1.length, rfl, ?_, ?_⟩
  · unfold step
    simp only [hblank, hline, hblock, hdigit, hquote, hstart, hsign, Bool.false_eq_true, if_false]
  · rw [chars, List.map_drop, ← chars, hgs, List.drop_left]

theorem keywords_read : ∀ k ∈ Keyword.all,
    isWord k.spelling.toList = true ∧ Lexeme.ofWord k.spelling = .keyword k := by
  decide +kernel

theorem primitives_read : ∀ p ∈ Primitive.all,
    isWord p.name.toList = true ∧ Lexeme.ofWord p.name = .primitive p := by
  decide +kernel

theorem ofWord_name {word : String} (hk : ∀ k : Keyword, k.spelling ≠ word)
    (hp : ∀ p : Primitive, p.name ≠ word) : Lexeme.ofWord word = .name word := by
  simp [Lexeme.ofWord, Primitive.ofWord?_eq_none.mpr hp, Keyword.ofWord?_eq_none.mpr hk]

/-- What follows a spelling does not run into it. -/
structure Parted (word tail : List Char) : Prop where
  afterWord : ∀ c ∈ word.head?, isWordChar c = true → EndsWord tail
  afterSign : ∀ c ∈ word.head?, opensSign c = true → EndsSign tail

theorem Parted.of_ended {word tail : List Char} (h : Ended tail) : Parted word tail :=
  ⟨fun _ _ _ => h.endsWord, fun _ _ _ => endsSign_of_ended h⟩

theorem Parted.endsWord {word tail : List Char} (h : Parted word tail) (hw : isWord word = true) :
    EndsWord tail := by
  cases word with
  | nil => cases hw
  | cons c word =>
    have hc : isWordStart c = true := by
      rw [isWord, Bool.and_eq_true] at hw
      exact hw.1
    exact h.afterWord c rfl (isWordChar_of_isWordStart hc)

theorem Parted.endsSign {entry : List Char × Lexeme} {tail : List Char} (h : Parted entry.1 tail)
    (hentry : entry ∈ signs) : EndsSign tail := by
  obtain ⟨c, word, hform⟩ := List.exists_cons_of_ne_nil (sound_signs entry hentry).1
  have hopens := (signs_forms entry hentry).2.2.2.1
  exact h.afterSign c (by simp [hform]) (by simpa [hform] using hopens)

/-- A step reads any spelling of a symbol that what follows does not run into. -/
theorem step_spells {gs : List Glyph} {l : Lexeme} {word tail : List Char} (h : Spells word l)
    (hgs : chars gs = word ++ tail) (ht : Parted word tail) : StepReads gs l tail := by
  cases h with
  | keyword k =>
    obtain ⟨hword, hof⟩ := keywords_read k k.mem_all
    have hread := step_word hgs hword (ht.endsWord hword)
    rwa [String.ofList_toList, hof] at hread
  | primitive p =>
    obtain ⟨hword, hof⟩ := primitives_read p p.mem_all
    have hread := step_word hgs hword (ht.endsWord hword)
    rwa [String.ofList_toList, hof] at hread
  | operator op =>
    have hop := operator_mem_signs op
    exact step_sign hop hgs (Parted.endsSign ht hop)
  | mark m =>
    have hm := mark_mem_signs m
    exact step_sign hm hgs (Parted.endsSign ht hm)
  | @name c cs hc hcs hk hp =>
    have hword : isWord (c :: cs) = true := by simpa [isWord, hc] using hcs
    have hread := step_word hgs hword (ht.endsWord hword)
    rwa [ofWord_name hk hp] at hread
  | decimal hn hlt =>
    obtain ⟨c, cs, rfl⟩ := List.exists_cons_of_ne_nil (mem_numeral hn).1
    have hwords := isWordChar_of_mem_numeral hn
    exact step_integer hgs (digit_of_numeral hn) (fun x hx => hwords x (List.mem_cons_of_mem c hx))
      (splitBase_decimal hn) hn hlt (ht.afterWord c rfl (hwords c List.mem_cons_self))
  | hexadecimal hn hlt =>
    exact step_integer hgs (by decide)
      (List.forall_mem_cons.mpr ⟨by decide +kernel, isWordChar_of_mem_numeral hn⟩) rfl hn hlt
      (ht.afterWord '0' rfl (by decide +kernel))
  | binary hn hlt =>
    exact step_integer hgs (by decide)
      (List.forall_mem_cons.mpr ⟨by decide +kernel, isWordChar_of_mem_numeral hn⟩) rfl hn hlt
      (ht.afterWord '0' rfl (by decide +kernel))
  | text hq => exact step_text hgs hq

end Token

/-! ### The whole text -/

theorem scanSteps_eq {n m : Nat} {gs : List Glyph} (hn : gs.length ≤ n) (hm : gs.length ≤ m) :
    scanSteps n gs = scanSteps m gs := by
  induction n generalizing m gs with
  | zero =>
    obtain rfl := List.length_eq_zero_iff.mp (Nat.le_zero.mp hn)
    cases m <;> rfl
  | succ n ih =>
    obtain _ | ⟨g, rest⟩ := gs
    · cases m <;> rfl
    obtain _ | m := m
    · cases hm
    have hfair := Token.step_fair g rest
    rw [scanSteps, scanSteps]
    cases hstep : Token.step g rest with
    | skip after =>
      rw [hstep] at hfair
      have hlen := List.IsSuffix.length_le hfair
      simp only [List.length_cons] at hn hm
      exact ih (by omega) (by omega)
    | read t after =>
      rw [hstep] at hfair
      have hlen := hfair.2.2.length_le
      simp only [List.length_cons] at hn hm
      dsimp only
      rw [ih (m := m) (by omega) (by omega)]
    | fail f => rfl

theorem scanGlyphs_of_skip {g : Glyph} {rest after : List Glyph}
    (h : Token.step g rest = .skip after) : scanGlyphs (g :: rest) = scanGlyphs after := by
  have hfair := Token.step_fair g rest
  rw [h] at hfair
  rw [scanGlyphs, List.length_cons, scanSteps, h]
  exact scanSteps_eq (List.IsSuffix.length_le hfair) (Nat.le_refl _)

theorem scanGlyphs_of_read {g : Glyph} {rest after : List Glyph} {t : Token}
    (h : Token.step g rest = .read t after) :
    scanGlyphs (g :: rest) = (scanGlyphs after).cons t := by
  have hfair := Token.step_fair g rest
  rw [h] at hfair
  rw [scanGlyphs, List.length_cons, scanSteps, h]
  dsimp only
  rw [scanSteps_eq hfair.2.2.length_le (Nat.le_refl _)]
  rfl

/-- A gap leaves no trace. -/
theorem scanGlyphs_gap {gap cs : List Char} {gs : List Glyph} (h : Gap gap)
    (hgs : chars gs = gap ++ cs) : ∃ after, chars after = cs ∧ scanGlyphs gs = scanGlyphs after := by
  induction h generalizing gs with
  | nil => exact ⟨gs, hgs, rfl⟩
  | blank hb _ ih =>
    obtain ⟨g, rest, rfl, rfl, hrest⟩ := chars_cons hgs
    obtain ⟨after, hafter, hscan⟩ := ih hrest
    have hstep : Token.step g rest = .skip rest := by
      unfold Token.step
      simp [hb]
    exact ⟨after, hafter, (scanGlyphs_of_skip hstep).trans hscan⟩
  | line hbody _ ih =>
    rw [List.cons_append, List.cons_append, List.append_assoc] at hgs
    obtain ⟨g, rest, rfl, hg, hrest⟩ := chars_cons hgs
    obtain ⟨k, rest, rfl, hk, hrest⟩ := chars_cons hrest
    obtain ⟨after, hafter, hscan⟩ := ih (Token.chars_afterLine hbody hrest)
    have hstep : Token.step g (k :: rest) = .skip (Token.afterLine rest) := by
      unfold Token.step
      simp [chars, hg, hk, show isBlank '/' = false by decide]
    exact ⟨after, hafter, (scanGlyphs_of_skip hstep).trans hscan⟩
  | block hbody _ ih =>
    rw [List.cons_append, List.cons_append, List.append_assoc] at hgs
    obtain ⟨g, rest, rfl, hg, hrest⟩ := chars_cons hgs
    obtain ⟨k, rest, rfl, hk, hrest⟩ := chars_cons hrest
    obtain ⟨tail, hblock, htail⟩ := Token.chars_afterBlock hbody hrest
    obtain ⟨after, hafter, hscan⟩ := ih htail
    have hstep : Token.step g (k :: rest) = .skip tail := by
      unfold Token.step
      simp [chars, hg, hk, hblock, show isBlank '/' = false by decide]
    exact ⟨after, hafter, (scanGlyphs_of_skip hstep).trans hscan⟩

/-- A symbol gives one token. -/
theorem scanGlyphs_spells {word tail : List Char} {l : Lexeme} {gs : List Glyph} (h : Spells word l)
    (hgs : chars gs = word ++ tail) (ht : Token.Parted word tail) :
    ∃ p after, chars after = tail ∧ scanGlyphs gs = (scanGlyphs after).cons ⟨l, p⟩ := by
  obtain ⟨g, rest, after, rfl, hstep, hafter⟩ := Token.step_spells h hgs ht
  exact ⟨g.position, after, hafter, scanGlyphs_of_read hstep⟩

theorem scanGlyphs_spelled {cs : List Char} {ls : List Lexeme} {gs : List Glyph} (h : Spelled cs ls)
    (hgs : chars gs = cs) :
    (scanGlyphs gs).tokens.map (·.lexeme) = ls ∧ (scanGlyphs gs).fault = none := by
  induction h generalizing gs with
  | nil =>
    obtain rfl := List.map_eq_nil_iff.mp hgs
    exact ⟨rfl, rfl⟩
  | @last word l hw =>
    rw [← List.append_nil word] at hgs
    obtain ⟨p, after, hafter, hscan⟩ := scanGlyphs_spells hw hgs (.of_ended (by simp [Ended]))
    obtain rfl := List.map_eq_nil_iff.mp hafter
    rw [hscan]
    exact ⟨rfl, rfl⟩
  | cons hw hb hgap _ ih =>
    rw [List.append_assoc, List.cons_append] at hgs
    obtain ⟨p, after, hafter, hscan⟩ := scanGlyphs_spells hw hgs (.of_ended (.cons hb))
    obtain ⟨rest, hrest, hskip⟩ := scanGlyphs_gap (.blank hb hgap) hafter
    obtain ⟨htokens, hfault⟩ := ih hrest
    rw [hscan, hskip]
    exact ⟨congrArg (_ :: ·) htokens, hfault⟩

theorem chars_locate (p : Position) (cs : List Char) : chars (locate p cs) = cs := by
  induction cs generalizing p with
  | nil => rfl
  | cons c cs ih => exact congrArg (c :: ·) (ih _)

/-- However a list of symbols is written, scanning the text gives back that list. -/
theorem scan_undoes_spelling {lead cs : List Char} {ls : List Lexeme} (hlead : Gap lead)
    (h : Spelled cs ls) :
    (scan (String.ofList (lead ++ cs))).tokens.map (·.lexeme) = ls ∧
      (scan (String.ofList (lead ++ cs))).fault = none := by
  have hchars : chars (glyphs (String.ofList (lead ++ cs))) = lead ++ cs := by
    rw [glyphs, chars_locate, String.toList_ofList]
  obtain ⟨after, hafter, hscan⟩ := scanGlyphs_gap hlead hchars
  rw [scan, hscan]
  exact scanGlyphs_spelled h hafter

/-- A comment, a name, an arrow, a hexadecimal number with a leading zero, a string with an escaped
quote and the opening of a comment in it, and a line comment. -/
theorem scan_undoes_spelling_sample :
    (scan "/*\"*/x1\t-> 0x0Ff \"/*\\\"\" //\n").tokens.map (·.lexeme) =
        [.name "x1", .mark .arrow, .integer 255, .text "/*\""] ∧
      (scan "/*\"*/x1\t-> 0x0Ff \"/*\\\"\" //\n").fault = none := by
  have hlead : Gap ['/', '*', '"', '*', '/'] := @Gap.block ['"'] [] (by decide) .nil
  have hname : Spells ['x', '1'] (.name "x1") :=
    .name (by decide +kernel) (List.forall_mem_singleton.mpr (by decide +kernel))
      (by intro k; cases k <;> decide)
      (by intro p; cases p <;> decide)
  have harrow : Spells ['-', '>'] (.mark .arrow) := .mark .arrow
  have hnumber : Numeral 16 ['0', 'F', 'f'] 255 :=
    .snoc (.snoc (.digit (d := 0) (by decide) (by decide)) (d := 15) (by decide) (by decide)) (d := 15)
      (by decide) (by decide)
  have htext : Quoted ['/', '*', '\\', '"'] ['/', '*', '"'] :=
    .raw (by decide) (by decide) (.raw (by decide) (by decide) (.escaped (by decide) .nil))
  have htail : Gap ['/', '/', '\n'] := @Gap.line [] [] (by decide) .nil
  have hspelled : Spelled "x1\t-> 0x0Ff \"/*\\\"\" //\n".toList
      [.name "x1", .mark .arrow, .integer 255, .text "/*\""] :=
    .cons hname (by decide) .nil
      (.cons harrow (by decide) .nil
        (.cons (.hexadecimal hnumber (by decide)) (by decide) .nil
          (.cons (.text htext) (by decide) htail .nil)))
  have hchars : "/*\"*/x1\t-> 0x0Ff \"/*\\\"\" //\n" = String.ofList
      (['/', '*', '"', '*', '/'] ++ "x1\t-> 0x0Ff \"/*\\\"\" //\n".toList) := by decide +kernel
  rw [hchars]
  exact scan_undoes_spelling hlead hspelled

end StoragePlan
