import StoragePlan.Fault
import StoragePlan.Token.Lexeme
import StoragePlan.Typing.ValueType

/-!
The ways in which a program that reads well can still be wrong.
-/

namespace StoragePlan

/-- A promise of the reader or of an earlier check that does not hold. -/
inductive BrokenPromise where
  | expectedName (found : Lexeme)
  | expectedLiteral (found : Lexeme)
  | missingStorage (id : String)
  | missingType (id : String)
  | outsideFunction
  deriving DecidableEq, Repr

def BrokenPromise.message : BrokenPromise → String
  | expectedName found => "expected an identifier, but found " ++ found.describe
  | expectedLiteral found => "expected a literal, but found " ++ found.describe
  | missingStorage id => id ++ " has no storage location"
  | missingType id => "type " ++ id ++ " is not active in memory"
  | outsideFunction => "return statement outside of a function"

inductive SemanticError where
  | undeclared (id : String)
  | alreadyDeclared (id : String) (previous : Position)
  | nameInUse (id : String)
  | notAValue (id : String)
  | notAFunction (id : String)
  | notAType (id : String)
  | unknownType (id : String)
  | duplicateField (udt field : String)
  | unknownField (udt field : String)
  | accessOnNonUdt (found : ValueType)
  | invalidDimension (d : Int)
  | recursiveType (id : String)
  | typeTooLarge (id : String)
  | outOfMemory (id : String)
  | operandMismatch (op : Lexeme) (left right : ValueType)
  | invalidOperand (op : Lexeme) (operand : ValueType)
  | invalidIndexTarget (found : ValueType)
  | invalidIndexType (found : ValueType)
  | assignmentMismatch (target value : ValueType)
  | assignToConstant (id : String)
  | wrongArgumentCount (id : String) (expected found : Nat)
  | argumentMismatch (id : String) (number : Nat) (expected found : ValueType)
  | returnMismatch (id : String) (expected found : ValueType)
  | unexpectedReturnValue (id : String)
  | missingReturnValue (id : String) (expected : ValueType)
  | missingReturn (id : String)
  | initializerNotLiteral (id : String)
  | invalidCondition (found : ValueType)
  | noValue (expr : String)
  | internal (cause : BrokenPromise)
  deriving DecidableEq, Repr

namespace SemanticError

def isInternal : SemanticError → Bool
  | internal _ => true
  | _ => false

def message : SemanticError → String
  | undeclared id => id ++ " is not declared"
  | alreadyDeclared id previous => id ++ " is already declared in this scope at L" ++ previous.text
  | nameInUse id => id ++ " is already defined by another file"
  | notAValue id => id ++ " is not a variable or constant"
  | notAFunction id => id ++ " is not a function"
  | notAType id => id ++ " is not a type"
  | unknownType id => "Type " ++ id ++ " is not declared"
  | duplicateField udt field => udt ++ " already has a field named " ++ field
  | unknownField udt field => udt ++ " does not have a field named " ++ field
  | accessOnNonUdt found =>
    "Member access is only valid on user defined types, found " ++ found.typeId
  | invalidDimension d =>
    "Invalid array dimension " ++ toString d ++ ": dimensions must be at least 1"
  | recursiveType id => "Type " ++ id ++ " contains itself and has no finite size"
  | typeTooLarge id => "Type " ++ id ++ " does not fit in a 32-bit address space"
  | outOfMemory id => id ++ " does not fit in memory: the 32-bit address space is exhausted"
  | operandMismatch op left right =>
    op.describe ++ " cannot be applied to " ++ left.typeId ++ " and " ++ right.typeId
  | invalidOperand op operand => op.describe ++ " cannot be applied to " ++ operand.typeId
  | invalidIndexTarget found => "Only arrays can be indexed, found " ++ found.typeId
  | invalidIndexType found => "Array index must be an integer, found " ++ found.typeId
  | assignmentMismatch target value => "Cannot assign " ++ value.typeId ++ " to " ++ target.typeId
  | assignToConstant id => "Cannot assign to constant " ++ id
  | wrongArgumentCount id expected found =>
    id ++ " expects " ++ toString expected ++ " arguments, but " ++ toString found ++ " were given"
  | argumentMismatch id number expected found =>
    "Argument " ++ toString number ++ " of " ++ id ++ " expects " ++ expected.typeId
      ++ ", but found " ++ found.typeId
  | returnMismatch id expected found =>
    id ++ " returns " ++ expected.typeId ++ ", but found " ++ found.typeId
  | unexpectedReturnValue id => id ++ " does not have a return type and cannot return a value"
  | missingReturnValue id expected => id ++ " must return a value of type " ++ expected.typeId
  | missingReturn id => id ++ " must end with a return statement"
  | initializerNotLiteral id => id ++ " must be initialized with a literal value"
  | invalidCondition found => "Condition must be an integer, found " ++ found.typeId
  | noValue expr => expr ++ " does not produce a value"
  | internal cause => "internal compiler error: " ++ cause.message

instance : ToString SemanticError := ⟨message⟩

end SemanticError

abbrev SemanticFault := Fault SemanticError

end StoragePlan
