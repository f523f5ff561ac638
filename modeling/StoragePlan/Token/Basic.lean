import StoragePlan.Text.Position
import StoragePlan.Token.Lexeme

/-!
A token is a lexeme at the place of its first character.
-/

namespace StoragePlan

structure Token where
  lexeme : Lexeme
  position : Position
  deriving DecidableEq, Repr

namespace Token

def is (t : Token) (l : Lexeme) : Bool := t.lexeme.sameKind l

/-- The name that a name token carries. -/
def name? (t : Token) : Option String :=
  match t.lexeme with
  | .name id => some id
  | _ => none

def describe (t : Token) : String := "L" ++ t.position.text ++ ": " ++ t.lexeme.describe

end Token

end StoragePlan
