import StoragePlan.Proofs.Tiling

/-!
The scanner reads line by line. Where a text ends without an error, a line end and another text
after it are scanned as the other text alone is, only further down: no symbol, comment or error goes
over the line end, and places depend on the line ends before them alone.

One step is followed twice. In front of a line end it does what it does at the end of a text
(`step_before_line`); and it does the same at any line (`step_down`). Both are then carried through
a whole scan by induction.
-/

namespace StoragePlan

/-! ### Further down -/

/-- The place `n` lines further down, in the same column. -/
def Position.down (n : Nat) (p : Position) : Position := { p with line := p.line + n }

def Glyph.down (n : Nat) (g : Glyph) : Glyph := { g with position := g.position.down n }

@[simp] theorem Glyph.down_char (n : Nat) (g : Glyph) : (g.down n).char = g.char := rfl

@[simp] theorem Glyph.down_position (n : Nat) (g : Glyph) :
    (g.down n).position = g.position.down n := rfl

def Token.down (n : Nat) (t : Token) : Token := { t with position := t.position.down n }

def Fault.down {ε : Type} (n : Nat) (f : Fault ε) : Fault ε :=
  { f with position := f.position.down n }

/-- What a step does with the same glyphs `n` lines further down. -/
def Token.Step.down (n : Nat) : Token.Step → Token.Step
  | .skip rest => .skip (rest.map (Glyph.down n))
  | .read t rest => .read (t.down n) (rest.map (Glyph.down n))
  | .fail f => .fail (f.down n)

namespace Scanned

def down (n : Nat) (s : Scanned) : Scanned :=
  ⟨s.tokens.map (Token.down n), s.fault.map (Fault.down n)⟩

/-- The tokens of one text and then those of another. -/
def followedBy (s s' : Scanned) : Scanned := ⟨s.tokens ++ s'.tokens, s'.fault⟩

/-- The character that the scanner is locked on, at its place. -/
def locked? (s : Scanned) : Option Glyph :=
  match s.fault with
  | some ⟨p, .locked c⟩ => some ⟨c, p⟩
  | _ => none

theorem cons_down (n : Nat) (t : Token) (s : Scanned) :
    (s.cons t).down n = (s.down n).cons (t.down n) := rfl

theorem cons_followedBy (t : Token) (s s' : Scanned) :
    (s.cons t).followedBy s' = (s.followedBy s').cons t := rfl

theorem locked?_down (n : Nat) (s : Scanned) :
    (s.down n).locked? = s.locked?.map (Glyph.down n) := by
  obtain ⟨tokens, fault⟩ := s
  cases fault with
  | none => rfl
  | some f =>
    obtain ⟨p, cause⟩ := f
    cases cause <;> rfl

end Scanned

theorem Position.down_next (n : Nat) (p : Position) (c : Char) :
    (p.down n).next c = (p.next c).down n := by
  by_cases hc : c = '\n'
  · simp [down, next, hc, Nat.add_right_comm]
  · simp [down, next, hc]

theorem locate_down (n : Nat) (p : Position) (cs : List Char) :
    locate (p.down n) cs = (locate p cs).map (Glyph.down n) := by
  induction cs generalizing p with
  | nil => rfl
  | cons c cs ih =>
    rw [locate, locate, List.map_cons, Position.down_next, ih]
    rfl

/-- A text after a line end starts in the first column, below the last line of what came before. -/
theorem locate_line (p : Position) (a b : List Char) :
    locate p (a ++ '\n' :: b) =
      locate p a ++ ⟨'\n', endOf p a⟩ :: locate (Position.start.down (endOf p a).line) b := by
  induction a generalizing p with
  | nil =>
    have hstart : p.next '\n' = Position.start.down p.line := by
      simp [Position.next, Position.down, Position.start, Nat.add_comm]
    rw [endOf, ← hstart]
    rfl
  | cons c a ih =>
    rw [List.cons_append, locate, ih]
    rfl

theorem chars_map_down (n : Nat) (gs : List Glyph) : chars (gs.map (Glyph.down n)) = chars gs := by
  rw [chars, List.map_map]
  rfl

namespace Token

/-! ### A step further down -/

theorem afterLine_down (n : Nat) (gs : List Glyph) :
    afterLine (gs.map (Glyph.down n)) = (afterLine gs).map (Glyph.down n) := by
  induction gs with
  | nil => rfl
  | cons g gs ih =>
    by_cases hg : (g.char == '\n') = true
    · simp [afterLine, hg]
    · simp [afterLine, hg, ih]

theorem afterBlock?_down (n : Nat) (gs : List Glyph) :
    afterBlock? (gs.map (Glyph.down n)) = (afterBlock? gs).map (List.map (Glyph.down n)) := by
  induction gs with
  | nil => rfl
  | cons g gs ih =>
    cases gs with
    | nil => rfl
    | cons k tail =>
      rw [List.map_cons] at ih
      rw [List.map_cons, List.map_cons, afterBlock?, afterBlock?, Glyph.down_char, Glyph.down_char,
        ih]
      by_cases hend : (g.char == '*' && k.char == '/') = true
      · rw [if_pos hend, if_pos hend, Option.map_some]
      · rw [if_neg hend, if_neg hend]

theorem stringBody_down (n : Nat) (start : Position) (gs : List Glyph) :
    stringBody (start.down n) (gs.map (Glyph.down n)) =
      match stringBody start gs with
      | .ok (content, after) => .ok (content, after.map (Glyph.down n))
      | .error f => .error (f.down n) := by
  fun_induction stringBody start gs with
  | case1 => rfl
  | case2 g rest hq =>
    rw [List.map_cons, stringBody.eq_def]
    simp [hq]
  | case3 g hq he => simp [stringBody, hq, he, Fault.down]
  | case4 g hq he e tail hc => simp [stringBody, hq, he, hc, Fault.down]
  | case5 g hq he e tail c hc content after hr ih => simp [stringBody, hq, he, hc, ih, hr]
  | case6 g hq he e tail c hc f hr ih => simp [stringBody, hq, he, hc, ih, hr]
  | case7 g rest hq he content after hr ih =>
    rw [List.map_cons, stringBody.eq_def]
    simp [hq, he, ih, hr]
  | case8 g rest hq he f hr ih =>
    rw [List.map_cons, stringBody.eq_def]
    simp [hq, he, ih, hr]

theorem takeWhile_down {p : Glyph → Bool} {n : Nat} (hp : ∀ g, p (g.down n) = p g)
    (gs : List Glyph) :
    (gs.map (Glyph.down n)).takeWhile p = (gs.takeWhile p).map (Glyph.down n) := by
  rw [List.takeWhile_map, show p ∘ Glyph.down n = p from funext hp]

theorem dropWhile_down {p : Glyph → Bool} {n : Nat} (hp : ∀ g, p (g.down n) = p g)
    (gs : List Glyph) :
    (gs.map (Glyph.down n)).dropWhile p = (gs.dropWhile p).map (Glyph.down n) := by
  rw [List.dropWhile_map, show p ∘ Glyph.down n = p from funext hp]

/-- A step looks at characters only, so it does the same at any line. -/
theorem step_down (n : Nat) (g : Glyph) (rest : List Glyph) :
    step (g.down n) (rest.map (Glyph.down n)) = (step g rest).down n := by
  unfold step
  dsimp only
  rw [← List.map_cons, ← List.map_take, ← List.map_drop, chars_map_down, Glyph.down_char,
    takeWhile_down (fun _ => rfl), dropWhile_down (fun _ => rfl), chars_map_down, afterLine_down,
    afterBlock?_down]
  split
  · rfl
  split
  · rfl
  split
  · cases afterBlock? ((g :: rest).drop 2) <;> rfl
  split
  · split <;> rfl
  split
  · rw [Glyph.down_position, stringBody_down]
    cases stringBody g.position rest <;> rfl
  split
  · rfl
  · cases hs : sign? (chars ((g :: rest).take 2)) with
    | none => rfl
    | some entry =>
      dsimp only
      rw [← List.map_drop]
      rfl

/-! ### A step in front of a line end -/

/-- How a step at the end of a text compares with the step in front of a line end and more text: it
leaves both where they are. Only a comment that ends with the text takes the line end as well. -/
inductive Step.Meets (nl : Glyph) (tail : List Glyph) : Step → Step → Prop
  | skip (after : List Glyph) : Meets nl tail (.skip after) (.skip (after ++ nl :: tail))
  | comment : Meets nl tail (.skip []) (.skip tail)
  | read (t : Token) (after : List Glyph) :
    Meets nl tail (.read t after) (.read t (after ++ nl :: tail))
  | fail (f : LexFault) (s : Step) : Meets nl tail (.fail f) s

theorem takeWhile_before {p : Glyph → Bool} {nl : Glyph} (hp : p nl = false)
    (gs tail : List Glyph) :
    (gs ++ nl :: tail).takeWhile p = gs.takeWhile p := by
  induction gs with
  | nil => simp [hp]
  | cons g gs ih => cases hg : p g <;> simp [hg, ih]

theorem dropWhile_before {p : Glyph → Bool} {nl : Glyph} (hp : p nl = false)
    (gs tail : List Glyph) :
    (gs ++ nl :: tail).dropWhile p = gs.dropWhile p ++ nl :: tail := by
  induction gs with
  | nil => simp [hp]
  | cons g gs ih => cases hg : p g <;> simp [hg, ih]

theorem afterBlock?_append {gs after : List Glyph} (h : afterBlock? gs = some after)
    (tail : List Glyph) : afterBlock? (gs ++ tail) = some (after ++ tail) := by
  induction gs with
  | nil => cases h
  | cons g gs ih =>
    cases gs with
    | nil => cases h
    | cons k rest =>
      rw [afterBlock?] at h
      rw [List.cons_append, List.cons_append, afterBlock?]
      by_cases hend : (g.char == '*' && k.char == '/') = true
      · rw [if_pos hend] at h ⊢
        cases h
        rfl
      · rw [if_neg hend] at h ⊢
        exact ih h

theorem stringBody_append {start : Position} {gs after : List Glyph} {content : List Char}
    (h : stringBody start gs = .ok (content, after)) (tail : List Glyph) :
    stringBody start (gs ++ tail) = .ok (content, after ++ tail) := by
  fun_induction stringBody start gs generalizing content with
  | case1 | case3 | case4 | case6 | case8 => cases h
  | case2 g rest hq =>
    cases h
    rw [List.cons_append, stringBody.eq_def]
    simp [hq]
  | case5 g hq he e rest c hc content' after' hr ih =>
    cases h
    rw [List.cons_append, stringBody.eq_def]
    simp [hq, he, hc, ih hr]
  | case7 g rest hq he content' after' hr ih =>
    cases h
    rw [List.cons_append, stringBody.eq_def]
    simp [hq, he, ih hr]

section Before

variable {nl : Glyph} (hnl : nl.char = '\n') (g : Glyph) (rest tail : List Glyph)
include hnl

/-- A line comment ends with its line, where the text ends or goes on in the next line. -/
theorem meets_afterLine (gs : List Glyph) :
    Step.Meets nl tail (.skip (afterLine gs)) (.skip (afterLine (gs ++ nl :: tail))) := by
  induction gs with
  | nil =>
    have hend : afterLine ([] ++ nl :: tail) = tail := by simp [afterLine, hnl]
    rw [hend]
    exact .comment
  | cons g gs ih =>
    by_cases hg : (g.char == '\n') = true
    · simp only [afterLine, hg, List.cons_append, if_true]
      exact .skip gs
    · simpa [afterLine, hg] using ih

/-- No comment opens with a line end. -/
theorem pair_before {a b : Char} (hb : b ≠ '\n') :
    [a, b].isPrefixOf (chars ((g :: (rest ++ nl :: tail)).take 2)) =
      [a, b].isPrefixOf (chars ((g :: rest).take 2)) := by
  cases rest with
  | nil => simp [chars, hnl, List.isPrefixOf, hb]
  | cons k rest => simp [chars]

/-- No sign has a line end in it. -/
theorem sign?_before :
    sign? (chars ((g :: (rest ++ nl :: tail)).take 2)) = sign? (chars ((g :: rest).take 2)) := by
  cases rest with
  | nil =>
    have hsecond : nl.char ∉ secondChars := by
      rw [hnl]
      decide
    exact sign?_pair hsecond
  | cons k rest => simp [chars]

theorem step_before_line : (step g rest).Meets nl tail (step g (rest ++ nl :: tail)) := by
  have hword : isWordChar nl.char = false := by
    rw [hnl]
    decide +kernel
  unfold step
  dsimp only
  rw [pair_before hnl g rest tail (by decide), pair_before hnl g rest tail (by decide),
    sign?_before hnl g rest tail, ← List.cons_append, takeWhile_before hword,
    dropWhile_before hword]
  -- The tests of both steps now agree; what is left is where each kind of symbol ends.
  by_cases hblank : isBlank g.char = true
  · rw [if_pos hblank, if_pos hblank]
    exact .skip rest
  rw [if_neg hblank, if_neg hblank]
  by_cases hline : ['/', '/'].isPrefixOf (chars ((g :: rest).take 2)) = true
  · rw [if_pos hline, if_pos hline]
    obtain ⟨-, k, rest, rfl, -⟩ := pair_of_isPrefixOf hline
    exact meets_afterLine hnl tail rest
  rw [if_neg hline, if_neg hline]
  by_cases hblock : ['/', '*'].isPrefixOf (chars ((g :: rest).take 2)) = true
  · rw [if_pos hblock, if_pos hblock]
    obtain ⟨-, k, rest, rfl, -⟩ := pair_of_isPrefixOf hblock
    have hdrop : (g :: k :: rest ++ nl :: tail).drop 2 = (g :: k :: rest).drop 2 ++ nl :: tail :=
      rfl
    rw [hdrop]
    cases hafter : afterBlock? ((g :: k :: rest).drop 2) with
    | none => exact .fail _ _
    | some after =>
      rw [afterBlock?_append hafter]
      exact .skip after
  rw [if_neg hblock, if_neg hblock]
  by_cases hdigit : ('0' ≤ g.char && g.char ≤ '9') = true
  · rw [if_pos hdigit, if_pos hdigit]
    split
    · exact .read _ _
    · exact .fail _ _
  rw [if_neg hdigit, if_neg hdigit]
  by_cases hquote : (g.char == '"') = true
  · rw [if_pos hquote, if_pos hquote]
    cases hbody : stringBody g.position rest with
    | error f => exact .fail _ _
    | ok result =>
      obtain ⟨content, after⟩ := result
      rw [stringBody_append hbody]
      exact .read _ _
  rw [if_neg hquote, if_neg hquote]
  by_cases hstart : isWordStart g.char = true
  · rw [if_pos hstart, if_pos hstart]
    exact .read _ _
  rw [if_neg hstart, if_neg hstart]
  cases hsign : sign? (chars ((g :: rest).take 2)) with
  | none => exact .fail _ _
  | some entry =>
    obtain ⟨spelling, l⟩ := entry
    have hfits : spelling.isPrefixOf (chars ((g :: rest).take 2)) = true :=
      List.find?_some (p := fun entry : List Char × Lexeme => entry.1.isPrefixOf _) hsign
    have hlen : spelling.length ≤ (g :: rest).length := by
      have hle := (List.isPrefixOf_iff_prefix.mp hfits).length_le
      rw [chars, List.length_map, List.length_take] at hle
      omega
    dsimp only
    rw [List.drop_append_of_le_length hlen]
    exact .read _ _

end Before

end Token

/-! ### The whole text -/

theorem scanSteps_down (n m : Nat) (gs : List Glyph) :
    scanSteps m (gs.map (Glyph.down n)) = (scanSteps m gs).down n := by
  induction m generalizing gs with
  | zero => rfl
  | succ m ih =>
    cases gs with
    | nil => rfl
    | cons g rest =>
      rw [List.map_cons, scanSteps, scanSteps, Token.step_down]
      cases Token.step g rest with
      | skip after => exact ih after
      | read t after =>
        show (scanSteps m (after.map (Glyph.down n))).cons (t.down n) = _
        rw [ih, Scanned.cons_down]
      | fail f => rfl

theorem scanGlyphs_down (n : Nat) (gs : List Glyph) :
    scanGlyphs (gs.map (Glyph.down n)) = (scanGlyphs gs).down n := by
  rw [scanGlyphs, List.length_map, scanSteps_down, scanGlyphs]

/-- What stands after a line end is scanned as if nothing stood before it. -/
theorem scanGlyphs_line {nl : Glyph} (hnl : nl.char = '\n') (gs tail : List Glyph)
    (h : (scanGlyphs gs).fault = none) :
    scanGlyphs (gs ++ nl :: tail) = (scanGlyphs gs).followedBy (scanGlyphs tail) := by
  have hblank : Token.step nl tail = .skip tail := by
    have hnewline : isBlank nl.char = true := by
      rw [hnl]
      decide +kernel
    unfold Token.step
    rw [if_pos hnewline]
  -- A step may take many glyphs, so the induction is on how many are left.
  induction hlen : gs.length using Nat.strong_induction_on generalizing gs with
  | _ len ih =>
  subst hlen
  cases gs with
  | nil => exact scanGlyphs_of_skip hblank
  | cons g rest =>
    have hfair := Token.step_fair g rest
    have hmeets := Token.step_before_line hnl g rest tail
    generalize hlong : Token.step g (rest ++ nl :: tail) = long at hmeets
    cases hstep : Token.step g rest with
    | skip after =>
      rw [hstep] at hfair hmeets
      rw [scanGlyphs_of_skip hstep] at h ⊢
      have hshort : after.length < (g :: rest).length := Nat.lt_succ_of_le hfair.length_le
      cases hmeets with
      | skip => exact (scanGlyphs_of_skip hlong).trans (ih _ hshort after h rfl)
      | comment => exact scanGlyphs_of_skip hlong
    | read t after =>
      rw [hstep] at hfair hmeets
      rw [scanGlyphs_of_read hstep] at h ⊢
      have hshort : after.length < (g :: rest).length := Nat.lt_succ_of_le hfair.2.2.length_le
      cases hmeets
      rw [List.cons_append, scanGlyphs_of_read hlong, ih _ hshort after h rfl,
        Scanned.cons_followedBy]
    | fail f =>
      rw [scanGlyphs_of_fail hstep] at h
      cases h

/-- A text that is scanned without an error, a line end and another text have the tokens of the
first text and then those of the other, further down by the lines of the first. The same goes for an
error in the other text and for the character that the scanner is locked on. -/
theorem scan_by_lines (a b : String) (h : (scan a).fault = none) :
    let n := (endOf .start a.toList).line
    scan (a ++ "\n" ++ b) =
      ⟨(scan a).tokens ++ (scan b).tokens.map (Token.down n), (scan b).fault.map (Fault.down n)⟩ ∧
    (scan (a ++ "\n" ++ b)).locked? = (scan b).locked?.map (Glyph.down n) := by
  intro n
  have hglyphs : glyphs (a ++ "\n" ++ b) =
      glyphs a ++ ⟨'\n', endOf .start a.toList⟩ :: (glyphs b).map (Glyph.down n) := by
    have htext : (a ++ "\n" ++ b).toList = a.toList ++ '\n' :: b.toList := by simp
    rw [glyphs, htext, locate_line, locate_down]
    rfl
  have hscan : scan (a ++ "\n" ++ b) = (scan a).followedBy ((scan b).down n) := by
    rw [scan, hglyphs, scanGlyphs_line rfl _ _ h, scanGlyphs_down]
    rfl
  rw [hscan]
  exact ⟨rfl, (scan b).locked?_down n⟩

/-- A slash on either side of the line end, a comment that the first text ends in, and a character
in the last line that nothing can be made of. -/
theorem scan_by_lines_slashes : (scan "x /\n// y").fault = none ∧
    scan ("x /\n// y" ++ "\n" ++ "/ 7\n  @") =
      ⟨[⟨.name "x", ⟨1, 1⟩⟩, ⟨.operator .div, ⟨1, 3⟩⟩, ⟨.operator .div, ⟨3, 1⟩⟩,
          ⟨.integer 7, ⟨3, 3⟩⟩],
        some ⟨⟨4, 3⟩, .locked '@'⟩⟩ ∧
    (scan ("x /\n// y" ++ "\n" ++ "/ 7\n  @")).locked? = some ⟨'@', ⟨4, 3⟩⟩ := by
  have hfirst : (scan "x /\n// y").fault = none := by decide +kernel
  obtain ⟨hscan, hlocked⟩ := scan_by_lines "x /\n// y" "/ 7\n  @" hfirst
  refine ⟨hfirst, hscan.trans ?_, hlocked.trans ?_⟩
  · decide +kernel
  · decide +kernel

end StoragePlan
