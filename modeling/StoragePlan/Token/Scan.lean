import StoragePlan.Fault
import StoragePlan.Text.Digits
import StoragePlan.Text.Glyph
import StoragePlan.Token.Basic

/-!
Reading a text as tokens. One `step` looks at the glyphs from a given place on and either skips a
blank or a comment, reads the longest lexeme that starts there, or fails; `scan` repeats it.
-/

namespace StoragePlan

inductive LexError where
  | locked (c : Char)
  | invalidEscape (c : Char)
  | missingEscape
  | unterminatedString
  | unterminatedComment
  | invalidInteger
  | integerOutOfRange (digits : String)
  deriving DecidableEq, Repr

def LexError.message : LexError → String
  | locked c => "Lexer locked on " ++ String.singleton c
  | invalidEscape c => "Invalid escape sequence \\" ++ String.singleton c
  | missingEscape => "Expected an escape character after \\"
  | unterminatedString => "String literal is missing its closing \""
  | unterminatedComment => "Block comment is missing its closing */"
  | invalidInteger => "Invalid integer"
  | integerOutOfRange digits => "Integer literal " ++ digits ++ " does not fit in 32 bits"

instance : ToString LexError := ⟨LexError.message⟩

abbrev LexFault := Fault LexError

namespace Token

/-- The outcome of one step. -/
inductive Step where
  | skip (rest : List Glyph)
  | read (token : Token) (rest : List Glyph)
  | fail (fault : LexFault)

/-! ### Comments -/

/-- What follows a line comment: the text after the next line end. -/
def afterLine : List Glyph → List Glyph
  | [] => []
  | g :: rest => if g.char == '\n' then rest else afterLine rest

/-- What follows a block comment, given the text after its opening; comments do not nest. -/
def afterBlock? : List Glyph → Option (List Glyph)
  | [] => none
  | g :: rest =>
    match rest with
    | [] => none
    | h :: tail => if g.char == '*' && h.char == '/' then some tail else afterBlock? rest

/-! ### Integers -/

/-- The largest value an integer literal may have. -/
def maxInteger : Nat := 0xFFFFFFFF

/-- Splits the text of an integer literal into its base and its digits. -/
def splitBase : List Char → Nat × List Char
  | '0' :: 'x' :: rest => (16, rest)
  | '0' :: 'b' :: rest => (2, rest)
  | cs => (10, cs)

def integer (word : List Char) : Except LexError Lexeme :=
  match splitBase word with
  | (_, []) => .error .invalidInteger
  | (base, digits) =>
    match digits? base 0 digits with
    | none => .error .invalidInteger
    | some n =>
      if n ≤ maxInteger then .ok (.integer n)
      else .error (.integerOutOfRange (String.ofList word))

/-! ### Strings -/

/-- The character that an escape letter stands for. -/
def escape? : Char → Option Char
  | 'n' => some '\n'
  | 'r' => some '\r'
  | 't' => some '\t'
  | '0' => some '\x00'
  | '"' => some '"'
  | '\\' => some '\\'
  | _ => none

/-- Reads a string opened at `start` up to its closing quote: its content and what follows it. -/
def stringBody (start : Position) : List Glyph → Except LexFault (List Char × List Glyph)
  | [] => .error ⟨start, .unterminatedString⟩
  | g :: rest =>
    if g.char == '"' then .ok ([], rest)
    else if g.char == '\\' then
      match rest with
      | [] => .error ⟨g.position, .missingEscape⟩
      | e :: tail =>
        match escape? e.char with
        | none => .error ⟨e.position, .invalidEscape e.char⟩
        | some c =>
          match stringBody start tail with
          | .ok (content, after) => .ok (c :: content, after)
          | .error f => .error f
    else
      match stringBody start rest with
      | .ok (content, after) => .ok (g.char :: content, after)
      | .error f => .error f

/-! ### Signs -/

/-- The operators and marks, longer spellings first. -/
def signs : List (List Char × Lexeme) :=
  [(['-', '>'], .mark .arrow),
   (['&', '&'], .operator .both),
   (['|', '|'], .operator .either),
   (['<', '<'], .operator .shiftLeft),
   (['>', '>'], .operator .shiftRight),
   (['!', '='], .operator .notEqual),
   (['=', '='], .operator .equal),
   (['>', '='], .operator .greaterEqual),
   (['<', '='], .operator .lessEqual),
   (['('], .mark .leftParen),
   ([')'], .mark .rightParen),
   (['\x7b'], .mark .leftBrace),
   (['\x7d'], .mark .rightBrace),
   (['['], .mark .leftBracket),
   ([']'], .mark .rightBracket),
   (['*'], .operator .mul),
   (['/'], .operator .div),
   (['%'], .operator .mod),
   (['+'], .operator .add),
   (['-'], .operator .minus),
   (['&'], .operator .bitAnd),
   (['|'], .operator .bitOr),
   (['^'], .operator .bitXor),
   (['~'], .operator .bitNot),
   (['!'], .operator .not),
   (['='], .operator .assign),
   ([';'], .mark .semicolon),
   ([':'], .mark .colon),
   ([','], .mark .comma),
   (['.'], .operator .dot),
   (['>'], .operator .greater),
   (['<'], .operator .less)]

/-- The longest sign at the head of a text. -/
def sign? (cs : List Char) : Option (List Char × Lexeme) :=
  signs.find? fun entry => entry.1.isPrefixOf cs

/-! ### One step -/

private def inWord (g : Glyph) : Bool := isWordChar g.char

/-- Reads from the glyph `g` that is followed by `rest`. -/
def step (g : Glyph) (rest : List Glyph) : Step :=
  let all := g :: rest
  if isBlank g.char then .skip rest
  else if ['/', '/'].isPrefixOf (chars (all.take 2)) then .skip (afterLine (all.drop 2))
  else if ['/', '*'].isPrefixOf (chars (all.take 2)) then
    match afterBlock? (all.drop 2) with
    | some after => .skip after
    | none => .fail ⟨g.position, .unterminatedComment⟩
  else if '0' ≤ g.char && g.char ≤ '9' then
    match integer (chars (all.takeWhile inWord)) with
    | .ok l => .read ⟨l, g.position⟩ (all.dropWhile inWord)
    | .error e => .fail ⟨g.position, e⟩
  else if g.char == '"' then
    match stringBody g.position rest with
    | .ok (content, after) => .read ⟨.text (String.ofList content), g.position⟩ after
    | .error f => .fail f
  else if isWordStart g.char then
    .read ⟨.ofWord (String.ofList (chars (all.takeWhile inWord))), g.position⟩ (all.dropWhile inWord)
  else
    match sign? (chars (all.take 2)) with
    | some (spelling, l) => .read ⟨l, g.position⟩ (all.drop spelling.length)
    | none => .fail ⟨g.position, .locked g.char⟩

end Token

/-! ### The whole text -/

/-- The tokens of a text up to its end or to the first error. -/
structure Scanned where
  tokens : List Token
  fault : Option LexFault
  deriving DecidableEq, Repr

namespace Scanned

def cons (t : Token) (s : Scanned) : Scanned := { s with tokens := t :: s.tokens }

/-- All tokens, if there was no error. -/
def toExcept (s : Scanned) : Except LexFault (List Token) :=
  match s.fault with
  | none => .ok s.tokens
  | some f => .error f

end Scanned

/-- At most `n` steps. Every step reads at least one glyph, so the number of glyphs is enough. -/
def scanSteps : Nat → List Glyph → Scanned
  | 0, _ => ⟨[], none⟩
  | _ + 1, [] => ⟨[], none⟩
  | n + 1, g :: rest =>
    match Token.step g rest with
    | .skip after => scanSteps n after
    | .read t after => (scanSteps n after).cons t
    | .fail f => ⟨[], some f⟩

def scanGlyphs (gs : List Glyph) : Scanned := scanSteps gs.length gs

/-- The tokens of a text. -/
def scan (text : String) : Scanned := scanGlyphs (glyphs text)

end StoragePlan
