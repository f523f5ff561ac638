import StoragePlan.Expr.Basic

/-!
Declarations of variables, constants and types, and the type annotations they carry.
-/

namespace StoragePlan

/-- A type as written: a name followed by array dimensions, each kept as it stands in the text. -/
structure Annotation where
  name : Token
  dims : List (Int × Position)
  deriving DecidableEq, Repr

namespace Annotation

def position (a : Annotation) : Position := a.name.position

def primitive? (a : Annotation) : Option Primitive :=
  match a.name.lexeme with
  | .primitive p => some p
  | _ => none

/-- The name without the dimensions. -/
def baseName (a : Annotation) : String :=
  match a.name.lexeme with
  | .name id => id
  | l => l.describe

def isArray (a : Annotation) : Bool := !a.dims.isEmpty

def text (a : Annotation) : String :=
  a.baseName ++ String.join (a.dims.map fun d => "[" ++ toString d.1 ++ "]")

end Annotation

/-- A parameter of a function or a field of a type. -/
structure Field where
  name : Token
  annotation : Annotation
  deriving DecidableEq, Repr

/-- The definition `type Name { field: type, … }`. -/
structure TypeDef where
  exported : Bool
  name : Token
  fields : List Field
  deriving DecidableEq, Repr

/-- The declaration `var name: type [= value];`. -/
structure VariableDecl where
  exported : Bool
  name : Token
  annotation : Annotation
  value : Option Expr
  deriving Repr

/-- The declaration `const name: type = value;`. -/
structure ConstantDecl where
  exported : Bool
  name : Token
  annotation : Annotation
  value : Expr
  deriving Repr

end StoragePlan
