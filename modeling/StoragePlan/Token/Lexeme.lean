import StoragePlan.Token.Primitive

/-!
What a token can be: a literal, a name, a built-in type or one of the fixed words and signs, together
with the spelling of the fixed ones and the wording that diagnostics use.
-/

namespace StoragePlan

inductive Keyword where
  | importKw | exportKw | fnKw | varKw | constKw | typeKw | ifKw | elseKw | whileKw | returnKw
  deriving DecidableEq, Repr

namespace Keyword

def spelling : Keyword → String
  | importKw => "import"
  | exportKw => "export"
  | fnKw => "fn"
  | varKw => "var"
  | constKw => "const"
  | typeKw => "type"
  | ifKw => "if"
  | elseKw => "else"
  | whileKw => "while"
  | returnKw => "return"

def all : List Keyword :=
  [importKw, exportKw, fnKw, varKw, constKw, typeKw, ifKw, elseKw, whileKw, returnKw]

def ofWord? (word : String) : Option Keyword := all.find? (·.spelling == word)

end Keyword

inductive Operator where
  | add | minus | mul | div | mod
  | bitAnd | bitOr | bitXor | bitNot | not
  | shiftLeft | shiftRight
  | equal | notEqual | less | lessEqual | greater | greaterEqual
  | both | either
  | assign | dot
  deriving DecidableEq, Repr

namespace Operator

def spelling : Operator → String
  | add => "+"
  | minus => "-"
  | mul => "*"
  | div => "/"
  | mod => "%"
  | bitAnd => "&"
  | bitOr => "|"
  | bitXor => "^"
  | bitNot => "~"
  | not => "!"
  | shiftLeft => "<<"
  | shiftRight => ">>"
  | equal => "=="
  | notEqual => "!="
  | less => "<"
  | lessEqual => "<="
  | greater => ">"
  | greaterEqual => ">="
  | both => "&&"
  | either => "||"
  | assign => "="
  | dot => "."

/-- How tightly a binary operator binds, from `||` at 1 up to `* / %` at 10. -/
def level? : Operator → Option Nat
  | either => some 1
  | both => some 2
  | bitOr => some 3
  | bitXor => some 4
  | bitAnd => some 5
  | equal | notEqual => some 6
  | less | lessEqual | greater | greaterEqual => some 7
  | shiftLeft | shiftRight => some 8
  | add | minus => some 9
  | mul | div | mod => some 10
  | bitNot | not | assign | dot => none

end Operator

inductive Mark where
  | leftParen | rightParen | leftBrace | rightBrace | leftBracket | rightBracket
  | comma | colon | semicolon | arrow
  deriving DecidableEq, Repr

def Mark.spelling : Mark → String
  | leftParen => "("
  | rightParen => ")"
  | leftBrace => "\x7b"
  | rightBrace => "\x7d"
  | leftBracket => "["
  | rightBracket => "]"
  | comma => ","
  | colon => ":"
  | semicolon => ";"
  | arrow => "->"

inductive Lexeme where
  | integer (value : Int)
  | text (content : String)
  | name (id : String)
  | primitive (p : Primitive)
  | keyword (k : Keyword)
  | operator (op : Operator)
  | mark (m : Mark)
  deriving DecidableEq, Repr

namespace Lexeme

/-- Same kind of lexeme: literals, names and types agree whatever they carry. -/
def sameKind : Lexeme → Lexeme → Bool
  | integer _, integer _ => true
  | text _, text _ => true
  | name _, name _ => true
  | primitive _, primitive _ => true
  | keyword j, keyword k => j == k
  | operator o, operator p => o == p
  | mark m, mark n => m == n
  | _, _ => false

/-- The lexeme that a word stands for. -/
def ofWord (word : String) : Lexeme :=
  match Primitive.ofWord? word with
  | some p => primitive p
  | none =>
    match Keyword.ofWord? word with
    | some k => keyword k
    | none => name word

/-- The wording of a lexeme in diagnostics. -/
def describe : Lexeme → String
  | integer i => "integer literal " ++ toString i
  | text s => "literal \"" ++ s ++ "\""
  | name id => "identifier " ++ id
  | primitive p => p.name
  | keyword k => k.spelling
  | operator op => op.spelling
  | mark m => m.spelling

def level? : Lexeme → Option Nat
  | operator op => op.level?
  | _ => none

end Lexeme

end StoragePlan
