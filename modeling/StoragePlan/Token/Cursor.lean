import StoragePlan.Fault
import StoragePlan.Token.Basic

/-!
A cursor over the tokens of one file, and the errors of reading them as a program. The cursor also
hands out the numbers of the expression nodes.
-/

namespace StoragePlan

inductive ParseError where
  | expectedButFound (expected : List Lexeme) (found : Option Lexeme)
  | expectedNameAfter (l : Lexeme)
  | expectedTypeAfter (l : Lexeme)
  | expectedExprAfter (l : Lexeme)
  | expectedDimension
  | expectedImportPath
  | expectedDeclaration (found : Option Lexeme)
  | exportNotAllowed (found : Option Lexeme)
  | invalidAssignmentTarget
  deriving DecidableEq, Repr

namespace ParseError

/-- The wording of the next lexeme, or of the end of the file. -/
def found : Option Lexeme → String
  | some l => l.describe
  | none => "EOF"

/-- The wording of a set of lexemes any of which would have been right. -/
def oneOf (set : List Lexeme) : String :=
  let names := ", ".intercalate (set.map (·.describe))
  if set.length > 1 then "one of " ++ names else names

def message : ParseError → String
  | expectedButFound expected actual => "Expected " ++ oneOf expected ++ ", but found " ++ found actual
  | expectedNameAfter l => "Expected identifier after " ++ l.describe
  | expectedTypeAfter l => "Expected type after " ++ l.describe
  | expectedExprAfter l => "Expected expression after " ++ l.describe
  | expectedDimension => "Expected integer literal for array dimension"
  | expectedImportPath => "Expected file path string literal after import"
  | expectedDeclaration actual =>
    "Expected import, type, fn, var or const declaration, but found " ++ found actual
  | exportNotAllowed actual =>
    "export must be followed by a type, fn, var or const declaration, but found " ++ found actual
  | invalidAssignmentTarget =>
    "Left side of an assignment must be a variable, field, or array element"

instance : ToString ParseError := ⟨message⟩

end ParseError

abbrev ParseFault := Fault ParseError

structure Cursor where
  /-- Number of tokens before the cursor. -/
  index : Nat
  /-- Tokens not yet read. -/
  rest : List Token
  /-- Place of the last token of the file. -/
  final : Position
  /-- Number of the next expression node. -/
  nextId : Nat
  deriving DecidableEq, Repr

namespace Cursor

def ofTokens (tokens : List Token) : Cursor :=
  ⟨0, tokens, (tokens.getLast?.map (·.position)).getD .start, 0⟩

/-- Moves the cursor of a file with these tokens to any index, also one past the end. -/
def seek (tokens : List Token) (n : Nat) (c : Cursor) : Cursor :=
  { c with index := n, rest := tokens.drop n }

def peek? (c : Cursor) : Option Token := c.rest.head?

def peekAt? (c : Cursor) (i : Nat) : Option Token := c.rest[i]?

/-- Place of the next token, or of the last one at the end. -/
def position (c : Cursor) : Position := (c.peek?.map (·.position)).getD c.final

def found? (c : Cursor) : Option Lexeme := c.peek?.map (·.lexeme)

def sees (c : Cursor) (l : Lexeme) : Bool := c.peek?.any (·.is l)

def seesAny (c : Cursor) (set : List Lexeme) : Bool := c.peek?.any fun t => set.any (t.is ·)

/-- Whether the next tokens are of the listed kinds, in order. -/
def seesAll (c : Cursor) (ls : List Lexeme) : Bool := agree c.rest ls
where
  agree : List Token → List Lexeme → Bool
    | _, [] => true
    | [], _ :: _ => false
    | t :: ts, l :: ls => t.is l && agree ts ls

/-- The error that any of these lexemes was due here. -/
def expected (c : Cursor) (set : List Lexeme) : ParseFault :=
  ⟨c.position, .expectedButFound set c.found?⟩

end Cursor

/-- Reading with a cursor; a failure also leaves it where it stopped. -/
abbrev Reader := EStateM ParseFault Cursor

namespace Reader

def fail {α : Type} (p : Position) (e : ParseError) : Reader α := throw ⟨p, e⟩

/-- Takes the next token, whatever it is. -/
def next? : Reader (Option Token) := fun c =>
  match c.rest with
  | [] => .ok none c
  | t :: rest => .ok (some t) { c with index := c.index + 1, rest := rest }

/-- Takes the next token if it passes a test. -/
def nextIf? (test : Token → Bool) : Reader (Option Token) := fun c =>
  match c.rest with
  | [] => .ok none c
  | t :: rest =>
    if test t then .ok (some t) { c with index := c.index + 1, rest := rest } else .ok none c

/-- Takes the next token if it is of the kind of `l`. -/
def accept? (l : Lexeme) : Reader (Option Token) := nextIf? (·.is l)

def acceptAny? (set : List Lexeme) : Reader (Option Token) := nextIf? fun t => set.any (t.is ·)

def acceptName? : Reader (Option Token) := accept? (.name "")

/-- Takes the next token, which has to be of the kind of `l`. -/
def require (l : Lexeme) : Reader Token := do
  match ← accept? l with
  | some t => return t
  | none => throw ((← get).expected [l])

/-- Takes the number of a new expression node. -/
def newId : Reader Nat := fun c => .ok c.nextId { c with nextId := c.nextId + 1 }

end Reader

end StoragePlan
