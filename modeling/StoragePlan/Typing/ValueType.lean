import StoragePlan.Text.Digits
import StoragePlan.Storage.Element
import StoragePlan.Token.Primitive

/-!
The types of values, and the ids under which storage records them: `u8`, `Point`, `u8[4][2]`.
-/

namespace StoragePlan

inductive ValueType where
  | prim (p : Primitive)
  | udt (id : String)
  | array (element : ValueType) (dims : List Nat)
  | undefined
  deriving DecidableEq, Repr

/-- The id of a type that is not known. -/
def undefinedId : String := "<undefined>"

/-- Dimensions as they follow the element's type in an id. -/
def dimsText (dims : List Nat) : String := String.join (dims.map fun d => "[" ++ toString d ++ "]")

namespace ValueType

def typeId : ValueType → String
  | prim p => p.name
  | udt id => id
  | array element dims => element.typeId ++ dimsText dims
  | undefined => undefinedId

/-! ### Reading an id -/

/-- An id without dimensions. -/
def ofBase (id : String) : ValueType :=
  if id == undefinedId || id == "" then undefined
  else
    match Primitive.ofWord? id with
    | some p => prim p
    | none => udt id

def isBracket (c : Char) : Bool := c == '[' || c == ']'

/-- The pieces of a text between its brackets. -/
def pieces : List Char → List (List Char)
  | [] => [[]]
  | c :: rest =>
    if isBracket c then [] :: pieces rest
    else
      match pieces rest with
      | [] => [[c]]
      | p :: ps => (c :: p) :: ps

/-- A dimension: decimal digits, perhaps after a plus, of a number that fits a word. -/
def dimension? (cs : List Char) : Option Nat :=
  let digits := match cs with
    | '+' :: rest => rest
    | _ => cs
  if digits.isEmpty then none else (digits? 10 0 digits).filter (· ≤ wordLimit)

/-- The type that an id stands for. Brackets are only looked at as dividers of the dimensions. -/
def ofId (id : String) : ValueType :=
  let base := id.toList.takeWhile (· != '[')
  match id.toList.dropWhile (· != '[') with
  | [] => ofBase id
  | rest =>
    match ((pieces rest).filter (!·.isEmpty)).mapM dimension? with
    | some (d :: ds) => array (ofBase (String.ofList base)) (d :: ds)
    | _ => undefined

/-! ### Properties -/

def isInteger : ValueType → Bool
  | prim p => p.isInteger
  | _ => false

def isUndefined (t : ValueType) : Bool := t == undefined

/-- The type of an array's elements: the array without its first dimension. -/
def element? : ValueType → Option ValueType
  | array element (_ :: d :: ds) => some (array element (d :: ds))
  | array element _ => some element
  | _ => none

end ValueType

end StoragePlan
