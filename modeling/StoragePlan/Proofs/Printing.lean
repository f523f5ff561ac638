import StoragePlan.Proofs.WellFormed
import StoragePlan.Proofs.TypeIds

/-!
The symbols of a printed expression. `text` writes some symbols with a blank between them and others
without one, so scanning it back depends on which character may follow which symbol. `Typeset` is a
text in which no symbol runs into the next; scanning it gives the symbols (`scan_typeset`). The text
of an expression is set from its `lexemes`, provided that its texts can stand between quotes as they
are (`WellFormed.sets`).
-/

namespace StoragePlan

open Token Grammar

/-! ### Texts in which no symbol runs into the next -/

/-- What ends a symbol of any kind comes first. -/
structure Breaks (tail : List Char) : Prop where
  word : EndsWord tail
  sign : EndsSign tail

/-- Symbols one after the other, with or without blanks. -/
inductive Typeset : List Char → List Lexeme → Prop
  | nil : Typeset [] []
  | blank {c : Char} {cs : List Char} {ls : List Lexeme} :
    isBlank c = true → Typeset cs ls → Typeset (c :: cs) ls
  | symbol {word rest : List Char} {l : Lexeme} {ls : List Lexeme} :
    Spells word l → Parted word rest → Typeset rest ls → Typeset (word ++ rest) (l :: ls)

theorem scanGlyphs_typeset {cs : List Char} {ls : List Lexeme} {gs : List Glyph} (h : Typeset cs ls)
    (hgs : chars gs = cs) :
    (scanGlyphs gs).tokens.map (·.lexeme) = ls ∧ (scanGlyphs gs).fault = none := by
  induction h generalizing gs with
  | nil =>
    obtain rfl := List.map_eq_nil_iff.mp hgs
    exact ⟨rfl, rfl⟩
  | blank hb _ ih =>
    obtain ⟨after, hafter, hscan⟩ := scanGlyphs_gap (.blank hb .nil) hgs
    rw [hscan]
    exact ih hafter
  | symbol hw hparted _ ih =>
    obtain ⟨p, after, hafter, hscan⟩ := scanGlyphs_spells hw hgs hparted
    obtain ⟨htokens, hfault⟩ := ih hafter
    rw [hscan]
    exact ⟨congrArg (_ :: ·) htokens, hfault⟩

/-- Scanning gives back the symbols that a text was set from. -/
theorem scan_typeset {text : String} {ls : List Lexeme} (h : Typeset text.toList ls) :
    (scan text).tokens.map (·.lexeme) = ls ∧ (scan text).fault = none :=
  scanGlyphs_typeset h (chars_locate _ _)

theorem endsSign_of_isWordChar {c : Char} {tail : List Char} (h : isWordChar c = true) :
    EndsSign (c :: tail) := by
  have hsigns : ('/' :: '*' :: secondChars).all (!isWordChar ·) = true := by decide +kernel
  exact endsSign_of_test hsigns (by simpa using h)

/-- The characters that follow an operand or a name. -/
def closers : List Char := [')', ' ', '.', '[', ']', ',', ';', '(', ':']

theorem Breaks.of_mem {c : Char} (h : c ∈ closers) (tail : List Char) : Breaks (c :: tail) := by
  have hclosers : closers.all (fun c => !isWordChar c && !secondChars.contains c && c != '/' &&
      c != '*') = true := by decide +kernel
  have hc := List.all_eq_true.mp hclosers c h
  simp only [Bool.and_eq_true, Bool.not_eq_true', bne_iff_ne] at hc
  constructor
  · simpa [EndsWord] using hc.1.1.1
  · have hsign : c ∉ secondChars := by simpa using hc.1.1.2
    simpa [EndsSign] using And.intro hsign ⟨hc.1.2, hc.2⟩

/-- A symbol before something that breaks it off. -/
theorem Typeset.before {word tail : List Char} {l : Lexeme} {ls : List Lexeme} (h : Spells word l)
    (hb : Breaks tail) (ht : Typeset tail ls) : Typeset (word ++ tail) (l :: ls) :=
  .symbol h ⟨fun _ _ _ => hb.word, fun _ _ _ => hb.sign⟩ ht

/-- A sign may also stand before a word. -/
theorem Typeset.sign {word tail : List Char} {l : Lexeme} {ls : List Lexeme}
    (h : (word, l) ∈ signs) (hs : EndsSign tail) (ht : Typeset tail ls) :
    Typeset (word ++ tail) (l :: ls) := by
  have hsigns : ∀ entry ∈ signs, entry.1.head?.all (!isWordChar ·) = true := by decide +kernel
  refine .symbol (spells_of_mem_signs h) ⟨fun c hc hword => ?_, fun _ _ _ => hs⟩ ht
  have hhead : word.head? = some c := hc
  exact absurd (hsigns _ h) (by simp [hhead, hword])

theorem Typeset.mark (m : Mark) {tail : List Char} {ls : List Lexeme} (hs : EndsSign tail)
    (ht : Typeset tail ls) : Typeset (m.spelling.toList ++ tail) (.mark m :: ls) :=
  .sign (mark_mem_signs m) hs ht

theorem Typeset.operator (op : Operator) {tail : List Char} {ls : List Lexeme} (hs : EndsSign tail)
    (ht : Typeset tail ls) : Typeset (op.spelling.toList ++ tail) (.operator op :: ls) :=
  .sign (operator_mem_signs op) hs ht

/-! ### What an expression starts with -/

/-- The symbols that a printed operand starts with, other than the sign of a number. -/
inductive Leading : Lexeme → Prop
  | paren : Leading (.mark .leftParen)
  | integer (v : Int) : Leading (.integer v)
  | text (s : String) : Leading (.text s)
  | name (id : String) : Leading (.name id)

/-- The operators that stand before an operand. -/
def unaryOperators : List Operator := [.minus, .not, .bitNot]

/-- Nothing that an operand or a sign before one starts with goes on with another sign. -/
theorem endsSign_of_spells {word tail : List Char} {l : Lexeme} (h : Spells word l)
    (hl : Leading l ∨ ∃ o ∈ unaryOperators, l = .operator o) : EndsSign (word ++ tail) := by
  have hnumeral : ∀ {base n : Nat} {cs : List Char}, Numeral base cs n → EndsSign (cs ++ tail) := by
    intro base n cs hn
    obtain ⟨c, cs, rfl⟩ := List.exists_cons_of_ne_nil (mem_numeral hn).1
    exact endsSign_of_isWordChar (isWordChar_of_mem_numeral hn c List.mem_cons_self)
  cases h with
  | keyword k => rcases hl with hl | ⟨o, -, hl⟩ <;> cases hl
  | primitive p => rcases hl with hl | ⟨o, -, hl⟩ <;> cases hl
  | operator op =>
    rcases hl with hl | ⟨o, ho, hl⟩
    · cases hl
    · obtain rfl := Lexeme.operator.inj hl
      simp only [unaryOperators, List.mem_cons, List.not_mem_nil, or_false] at ho
      rcases ho with rfl | rfl | rfl <;> simp [EndsSign, Operator.spelling, secondChars]
  | mark m =>
    rcases hl with hl | ⟨o, -, hl⟩
    · cases hl
      simp [EndsSign, Mark.spelling, secondChars]
    · cases hl
  | name hc => exact endsSign_of_isWordChar (isWordChar_of_isWordStart hc)
  | decimal hn => exact hnumeral hn
  | hexadecimal => exact endsSign_of_isWordChar (by decide +kernel)
  | binary => exact endsSign_of_isWordChar (by decide +kernel)
  | text => simp [EndsSign, secondChars]

theorem Typeset.endsSign {cs : List Char} {l : Lexeme} {ls : List Lexeme} (h : Typeset cs (l :: ls))
    (hl : Leading l ∨ ∃ o ∈ unaryOperators, l = .operator o) : EndsSign cs := by
  cases h with
  | blank hb => exact endsSign_of_ended (.cons hb)
  | symbol hw => exact endsSign_of_spells hw hl

/-! ### Numbers and texts -/

theorem numeral_toDigits (n : Nat) : Numeral 10 (Nat.toDigits 10 n) n := by
  rw [numeral_iff, digits?_of_isDigit isDigit_of_mem_toDigits, Nat.ofDigitChars_ten_toDigits]
  exact ⟨Nat.toDigits_ne_nil, rfl⟩

/-- Whether a text can stand between quotes as it is. -/
def isRaw (s : String) : Bool := s.toList.all fun c => c != '"' && c != '\\'

theorem quoted_of_isRaw {s : String} (h : isRaw s = true) : Quoted s.toList s.toList := by
  unfold isRaw at h
  generalize s.toList = cs at h
  induction cs with
  | nil => exact .nil
  | cons c cs ih =>
    simp only [List.all_cons, Bool.and_eq_true, bne_iff_ne] at h
    exact .raw h.1.1 h.1.2 (ih h.2)

namespace Expr

/-! ### The symbols of an expression -/

/-- A number below zero, which is printed with a sign. -/
def isNegative : Expr → Bool
  | literal _ t =>
    match t.lexeme with
    | .integer v => v < 0
    | _ => false
  | _ => false

mutual

/-- No text in the expression has a quote or a backslash in it, and no negative number stands
directly before a field or a subscript. -/
def isPlain : Expr → Bool
  | literal _ t =>
    match t.lexeme with
    | .text s => isRaw s
    | _ => true
  | ident _ _ => true
  | unary _ _ operand => operand.isPlain
  | binary _ left op right =>
    !(isAccess op && left.isNegative) && (left.isPlain && right.isPlain)
  | call _ _ args => arePlain args
  | index _ target _ subscript =>
    !target.isNegative && (target.isPlain && subscript.isPlain)

def arePlain : List Expr → Bool
  | [] => true
  | e :: rest => e.isPlain && arePlain rest

end

/-- The symbols of a number: the sign is one of its own. -/
def signed (v : Int) : List Lexeme :=
  if v < 0 then [.operator .minus, .integer (-v)] else [.integer v]

mutual

/-- The symbols that an expression is printed with. -/
def lexemes : Expr → List Lexeme
  | literal _ t =>
    match t.lexeme with
    | .integer v => signed v
    | l => [l]
  | ident _ t => [t.lexeme]
  | unary _ op operand =>
    .mark .leftParen :: op.lexeme :: (operand.lexemes ++ [.mark .rightParen])
  | binary _ left op right =>
    if isAccess op then left.lexemes ++ op.lexeme :: right.lexemes
    else .mark .leftParen :: (left.lexemes ++ op.lexeme :: (right.lexemes ++ [.mark .rightParen]))
  | call _ callee args =>
    callee.lexeme :: .mark .leftParen :: (argLexemes args ++ [.mark .rightParen])
  | index _ target bracket subscript =>
    target.lexemes ++ bracket.lexeme :: (subscript.lexemes ++ [.mark .rightBracket])

def argLexemes : List Expr → List Lexeme
  | [] => []
  | e :: rest => e.lexemes ++ moreLexemes rest

def moreLexemes : List Expr → List Lexeme
  | [] => []
  | e :: rest => .mark .comma :: (e.lexemes ++ moreLexemes rest)

end

theorem lexemes_access {op : Token} (hop : op.lexeme = .operator .dot) {id : Nat}
    {left right : Expr} :
    (Expr.binary id left op right).lexemes = left.lexemes ++ op.lexeme :: right.lexemes := by
  rw [lexemes, isAccess_dot hop, if_pos rfl]

theorem lexemes_joined {op : Token} (hop : BinaryToken op) {id : Nat} {left right : Expr} :
    (Expr.binary id left op right).lexemes =
      .mark .leftParen :: (left.lexemes ++ op.lexeme :: right.lexemes ++ [.mark .rightParen]) := by
  simp [lexemes, isAccess_binary hop]

/-! ### The first symbol -/

theorem operator_of_binary {op : Token} (h : BinaryToken op) : ∃ o, op.lexeme = .operator o := by
  unfold BinaryToken at h
  cases hl : op.lexeme with
  | operator o => exact ⟨o, rfl⟩
  | _ => simp [hl, Lexeme.level?] at h

theorem describe_operator (o : Operator) : (Lexeme.operator o).describe = o.spelling := rfl

theorem operator_of_unary {op : Token} (h : UnaryToken op) :
    ∃ o ∈ unaryOperators, op.lexeme = .operator o := by
  rcases h with ho | ho | ho
  · exact ⟨_, by decide, ho⟩
  · exact ⟨_, by decide, ho⟩
  · exact ⟨_, by decide, ho⟩

theorem isPlain_of_mem {args : List Expr} (h : arePlain args = true) {e : Expr} (he : e ∈ args) :
    e.isPlain = true := by
  induction args with
  | nil => cases he
  | cons a args ih =>
    rw [arePlain, Bool.and_eq_true] at h
    rcases List.mem_cons.mp he with rfl | he
    · exact h.1
    · exact ih h.2 he

/-- The first symbol of an expression, which is a sign only for a negative number. -/
theorem WellFormed.head {e : Expr} (h : WellFormed e) (hp : e.isPlain = true) :
    ∃ l ls, e.lexemes = l :: ls ∧
      (e.isNegative = true ∧ l = .operator .minus ∨ e.isNegative = false ∧ Leading l) := by
  induction h with
  | @integer id v p =>
    simp only [lexemes, isNegative, signed]
    by_cases hv : v < 0
    · exact ⟨_, _, by rw [if_pos hv], .inl ⟨by simpa using hv, rfl⟩⟩
    · exact ⟨_, _, by rw [if_neg hv], .inr ⟨by simpa using hv, .integer v⟩⟩
  | text id s p => exact ⟨_, _, rfl, .inr ⟨rfl, .text s⟩⟩
  | name id ht =>
    obtain ⟨x, hx, -⟩ := ht
    exact ⟨_, _, rfl, .inr ⟨rfl, hx ▸ .name x⟩⟩
  | unary => exact ⟨_, _, rfl, .inr ⟨rfl, .paren⟩⟩
  | joined id hop =>
    exact ⟨_, _, lexemes_joined hop, .inr ⟨rfl, .paren⟩⟩
  | field id id' hop _ _ ih =>
    simp only [isPlain, isAccess_dot hop, Bool.true_and, Bool.and_eq_true, Bool.not_eq_true'] at hp
    obtain ⟨l, ls, hl, hlead⟩ := ih hp.2.1
    refine ⟨l, _, by rw [lexemes_access hop, hl, List.cons_append], .inr ⟨rfl, ?_⟩⟩
    rw [hp.1] at hlead
    simpa using hlead
  | call id hc =>
    obtain ⟨x, hx, -⟩ := hc
    exact ⟨_, _, rfl, .inr ⟨rfl, hx ▸ .name x⟩⟩
  | index id hb _ _ ih =>
    simp only [isPlain, Bool.and_eq_true, Bool.not_eq_true'] at hp
    obtain ⟨l, ls, hl, hlead⟩ := ih hp.2.1
    refine ⟨l, _, by rw [lexemes, hl, List.cons_append], .inr ⟨rfl, ?_⟩⟩
    rw [hp.1] at hlead
    simpa using hlead

/-! ### The text of an expression -/

/-- The text of the expression, before anything that breaks it off, is set from its symbols. -/
def Sets (e : Expr) : Prop := ∀ ⦃tail : List Char⦄ ⦃ls : List Lexeme⦄, Breaks tail →
  Typeset tail ls → Typeset (e.text.toList ++ tail) (e.lexemes ++ ls)

/-- Signs may stand right before an expression. -/
theorem WellFormed.endsSign {e : Expr} (h : WellFormed e) (hp : e.isPlain = true) {cs : List Char}
    {ls : List Lexeme} (ht : Typeset cs (e.lexemes ++ ls)) : EndsSign cs := by
  obtain ⟨l, ls', hl, hlead⟩ := h.head hp
  rw [hl, List.cons_append] at ht
  apply ht.endsSign
  rcases hlead with ⟨-, rfl⟩ | ⟨-, hlead⟩
  · exact .inr ⟨.minus, by decide, rfl⟩
  · exact .inl hlead

theorem sets_number {id : Nat} {v : Int} {p : Position} (hv : v.natAbs < 2 ^ 32) :
    Sets (.literal id ⟨.integer v, p⟩) := by
  intro tail ls hb ht
  have hdigits : ∀ n : Nat, n < 2 ^ 32 → Typeset (n.repr.toList ++ tail) (.integer n :: ls) := by
    intro n hn
    rw [Nat.toList_repr]
    exact .before (.decimal (numeral_toDigits n) hn) hb ht
  cases v with
  | ofNat n =>
    have hn : ¬ (Int.ofNat n < 0) := by simp
    simp only [lexemes, signed, if_neg hn]
    exact hdigits n hv
  | negSucc n =>
    have hset := hdigits (n + 1) hv
    have htext : (literal id ⟨.integer (.negSucc n), p⟩).text = "-" ++ (n + 1).repr := rfl
    rw [htext, String.toList_append, List.append_assoc]
    simp only [lexemes, signed, if_pos (Int.negSucc_lt_zero n)]
    exact .operator .minus (hset.endsSign (.inl (.integer _))) hset

theorem sets_name {t : Token} (ht : Named t) (id : Nat) : Sets (.ident id t) := by
  obtain ⟨lexeme, p⟩ := t
  obtain ⟨x, rfl, hx⟩ := ht
  intro tail ls hb ht
  exact .before hx hb ht

/-- The arguments of a call but the first, with a comma before each. -/
theorem sets_more {args : List Expr} (h : ∀ e ∈ args, Sets e) {tail : List Char} {ls : List Lexeme}
    (hb : Breaks tail) (ht : Typeset tail ls) :
    Breaks ((moreArgsText args).toList ++ tail) ∧
      Typeset ((moreArgsText args).toList ++ tail) (moreLexemes args ++ ls) := by
  induction args with
  | nil => exact ⟨hb, ht⟩
  | cons e args ih =>
    rw [List.forall_mem_cons] at h
    obtain ⟨hbreaks, hset⟩ := ih h.2
    have hcomma : Typeset (',' :: ' ' :: (e.text.toList ++ ((moreArgsText args).toList ++ tail)))
        (.mark .comma :: (e.lexemes ++ (moreLexemes args ++ ls))) :=
      .mark .comma (endsSign_of_ended (.cons (by decide))) (.blank (by decide) (h.1 hbreaks hset))
    have htext : (moreArgsText (e :: args)).toList ++ tail =
        ',' :: ' ' :: (e.text.toList ++ ((moreArgsText args).toList ++ tail)) := by
      simp [moreArgsText]
    rw [htext]
    constructor
    · exact .of_mem (by decide) _
    · simpa [moreLexemes] using hcomma

/-- The arguments of a call and the parentheses around them. -/
theorem sets_args {args : List Expr} (hf : ∀ e ∈ args, WellFormed e) (hp : arePlain args = true)
    (h : ∀ e ∈ args, Sets e) {tail : List Char} {ls : List Lexeme} (hb : Breaks tail)
    (ht : Typeset tail ls) :
    Typeset ('(' :: ((argsText args).toList ++ ')' :: tail))
      (.mark .leftParen :: (argLexemes args ++ .mark .rightParen :: ls)) := by
  have hclose : Typeset (')' :: tail) (.mark .rightParen :: ls) := .mark .rightParen hb.sign ht
  have hbreaks : Breaks (')' :: tail) := .of_mem (by decide) tail
  cases args with
  | nil => exact .mark .leftParen hbreaks.sign hclose
  | cons e args =>
    obtain ⟨hmore, hset⟩ := sets_more (fun a ha => h a (List.mem_cons_of_mem e ha)) hbreaks hclose
    have hargs := h e List.mem_cons_self hmore hset
    rw [arePlain, Bool.and_eq_true] at hp
    have hsign := (hf e List.mem_cons_self).endsSign hp.1 hargs
    simpa [argsText, argLexemes, Mark.spelling] using Typeset.mark .leftParen hsign hargs

theorem WellFormed.sets {e : Expr} (h : WellFormed e) (hp : e.isPlain = true) : Sets e := by
  induction h with
  | integer hv => exact sets_number hv
  | text id s p =>
    intro tail ls hb ht
    have hspells : Spells ('"' :: s.toList ++ ['"']) (.text (String.ofList s.toList)) :=
      .text (quoted_of_isRaw hp)
    rw [String.ofList_toList] at hspells
    simpa [Expr.text, lexemes, leafText] using Typeset.before hspells hb ht
  | name id ht => exact sets_name ht id
  | @unary op operand id hop _ hf ih =>
    intro tail ls hb ht
    have hclose : Typeset (')' :: tail) (.mark .rightParen :: ls) := .mark .rightParen hb.sign ht
    have hset := ih hp (.of_mem (by decide) tail) hclose
    have hsign := hf.endsSign hp hset
    obtain ⟨o, hmem, ho⟩ := operator_of_unary hop
    have hop := Typeset.operator o hsign hset
    have hall := Typeset.mark .leftParen (hop.endsSign (.inr ⟨o, hmem, rfl⟩)) hop
    simpa [Expr.text, lexemes, ho, describe_operator, Mark.spelling] using hall
  | @joined op left right id hbinary hl hr ihl ihr =>
    intro tail ls hb ht
    simp only [isPlain, Bool.and_eq_true] at hp
    obtain ⟨o, ho⟩ := operator_of_binary hbinary
    have hclose : Typeset (')' :: tail) (.mark .rightParen :: ls) := .mark .rightParen hb.sign ht
    have hright := ihr hp.2.2 (.of_mem (by decide) tail) hclose
    have hblank : ∀ cs, EndsSign (' ' :: cs) := fun cs => endsSign_of_ended (.cons (by decide))
    have hop := Typeset.operator o (hblank _) (.blank (by decide) hright)
    have hleft := ihl hp.2.1 (.of_mem (c := ' ') (by decide) _) (.blank (by decide) hop)
    have hall := Typeset.mark .leftParen (hl.endsSign hp.2.1 hleft) hleft
    simpa [Expr.text, lexemes_joined hbinary, isAccess_binary hbinary, ho, describe_operator,
      Mark.spelling] using hall
  | @field op name left id id' hop hl hname ih =>
    intro tail ls hb ht
    simp only [isPlain, Bool.and_eq_true] at hp
    have hright := sets_name hname id' hb ht
    have hsign := (WellFormed.name id' hname).endsSign rfl hright
    have hleft := ih hp.2.1 (.of_mem (c := '.') (by decide) _) (.operator .dot hsign hright)
    simpa [Expr.text, lexemes_access hop, isAccess_dot hop, hop, Operator.spelling] using hleft
  | @call callee args id hc hf ih =>
    intro tail ls hb ht
    rw [isPlain] at hp
    have hargs := sets_args hf hp (fun e he => ih e he (isPlain_of_mem hp he)) hb ht
    obtain ⟨x, hx, hspells⟩ := hc
    have hall := Typeset.before hspells (.of_mem (c := '(') (by decide) _) hargs
    simpa [Expr.text, lexemes, Token.name?, hx] using hall
  | @index bracket target subscript id hbracket hl hr ihl ihr =>
    intro tail ls hb ht
    simp only [isPlain, Bool.and_eq_true] at hp
    have hclose : Typeset (']' :: tail) (.mark .rightBracket :: ls) :=
      .mark .rightBracket hb.sign ht
    have hsub := ihr hp.2.2 (.of_mem (by decide) tail) hclose
    have hopen := Typeset.mark .leftBracket (hr.endsSign hp.2.2 hsub) hsub
    have htarget := ihl hp.2.1 (.of_mem (c := '[') (by decide) _) hopen
    simpa [Expr.text, lexemes, hbracket, Mark.spelling] using htarget

/-- The declaration of a variable that the expression is the value of. -/
def declared (e : Expr) : String := "var x: u8 = " ++ e.text ++ ";"

/-- The symbols of such a declaration. -/
theorem WellFormed.scan_declared {e : Expr} (h : WellFormed e) (hp : e.isPlain = true) :
    (scan e.declared).tokens.map (·.lexeme) =
        .keyword .varKw :: .name "x" :: .mark .colon :: .primitive .u8 :: .operator .assign ::
          (e.lexemes ++ [.mark .semicolon]) ∧
      (scan e.declared).fault = none := by
  have hblank : ∀ cs, EndsSign (' ' :: cs) := fun cs => endsSign_of_ended (.cons (by decide))
  have hx : Spells ['x'] (.name "x") :=
    .name (by decide +kernel) (by simp) (by intro k; cases k <;> decide)
      (by intro p; cases p <;> decide)
  have hend : Typeset [';'] [.mark .semicolon] := .mark .semicolon (by simp [EndsSign]) .nil
  have hvalue := h.sets hp (.of_mem (by decide) []) hend
  have hassign := Typeset.operator .assign (hblank _) (.blank (by decide) hvalue)
  have htype := Typeset.before (.primitive .u8) (.of_mem (c := ' ') (by decide) _)
    (.blank (by decide) hassign)
  have hcolon := Typeset.mark .colon (hblank _) (.blank (by decide) htype)
  have hname := Typeset.before hx (.of_mem (c := ':') (by decide) _) hcolon
  have hall := Typeset.before (.keyword .varKw) (.of_mem (c := ' ') (by decide) _)
    (.blank (by decide) hname)
  have htext : e.declared.toList = "var".toList ++ ' ' :: ("x".toList ++ (":".toList ++ ' ' ::
      ("u8".toList ++ ' ' :: ("=".toList ++ ' ' :: (e.text.toList ++ [';']))))) := by
    simp [declared]
  apply scan_typeset
  rw [htext]
  exact hall

end Expr

end StoragePlan
