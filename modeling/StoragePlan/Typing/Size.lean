import StoragePlan.Storage.Tracker
import StoragePlan.Typing.ValueType

/-!
How many bytes a value takes. User defined types are packed: their size is the sum over their
fields, and that of an array the product with its dimensions.
-/

namespace StoragePlan

/-- The largest size that a 32-bit target can address. -/
def maxStorage : Nat := 0xFFFFFFFF

inductive SizeError where
  | unknownType (id : String)
  | recursive (id : String)
  | tooLarge (id : String)
  | undefined
  deriving DecidableEq, Repr

namespace ValueType

/-- The product of a size with dimensions, unless one of the partial products passes a word. -/
def scale? (size : Nat) : List Nat → Option Nat
  | [] => some size
  | d :: ds => if size * d ≤ wordLimit then scale? (size * d) ds else none

/-- The size of a type whose user defined types have the sizes `udtSize`. -/
def sizeWith (udtSize : String → Except SizeError Nat) : ValueType → Except SizeError Nat
  | prim p => .ok p.size
  | udt id => udtSize id
  | undefined => .error .undefined
  | array element dims => do
    let size ← sizeWith udtSize element
    match (scale? size dims).filter (· ≤ maxStorage) with
    | some n => .ok n
    | none => .error (.tooLarge (array element dims).typeId)

/-- Adds up the sizes of the fields of `id`, starting from `sum`. -/
def sumFields (sizeOf : ValueType → Except SizeError Nat) (id : String) (sum : Nat) :
    List Member → Except SizeError Nat
  | [] => .ok sum
  | f :: rest => do
    let size ← sizeOf (ofId f.typeId)
    if sum + size ≤ maxStorage then sumFields sizeOf id (sum + size) rest
    else .error (.tooLarge id)

/-- The size of a user defined type met inside the types `visiting`, which are all different and
active; the first argument bounds how many more can be met. -/
def udtSize (memory : Tracker) : Nat → List String → String → Except SizeError Nat
  | 0, _, id => .error (.unknownType id)
  | n + 1, visiting, id =>
    if visiting.contains id then .error (.recursive id)
    else
      match memory.findUdt? id with
      | none => .error (.unknownType id)
      | some u => sumFields (sizeWith (udtSize memory n (id :: visiting))) id 0 u.fields

/-- The storage size of a type. -/
def size (t : ValueType) (memory : Tracker) : Except SizeError Nat :=
  sizeWith (udtSize memory (memory.udts.length + 1) []) t

end ValueType

end StoragePlan
