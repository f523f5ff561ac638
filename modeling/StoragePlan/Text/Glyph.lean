import StoragePlan.Text.Alphabetic
import StoragePlan.Text.Blank
import StoragePlan.Text.Numeral
import StoragePlan.Text.Position

/-!
A source text as the list of its characters, each tagged once with its place. Everything that reads
the text copies these tags and never computes a place of its own.
-/

namespace StoragePlan

def isAlphanumeric (c : Char) : Bool := isAlphabetic c || isNumeral c

/-- What may follow the first character of a word or of an integer. -/
def isWordChar (c : Char) : Bool := isAlphanumeric c || c == '_'

/-- What may start a word. -/
def isWordStart (c : Char) : Bool := isAlphabetic c || c == '_'

/-- A character at its place. -/
structure Glyph where
  char : Char
  position : Position
  deriving DecidableEq, Repr

/-- Tags the characters of a text whose first character stands at `p`. -/
def locate (p : Position) : List Char → List Glyph
  | [] => []
  | c :: rest => ⟨c, p⟩ :: locate (p.next c) rest

/-- The place after the last character of a text that starts at `p`. -/
def endOf (p : Position) : List Char → Position
  | [] => p
  | c :: rest => endOf (p.next c) rest

/-- The glyphs of a whole text. -/
def glyphs (text : String) : List Glyph := locate .start text.toList

/-- The characters of a list of glyphs. -/
def chars (gs : List Glyph) : List Char := gs.map (·.char)

end StoragePlan
