import StoragePlan.Names.TypeTable
import StoragePlan.Text.Position

/-!
Declared names.
-/

namespace StoragePlan

/-- An argument of a function or a field of a type. -/
structure TypedName where
  id : String
  type : Handle
  deriving DecidableEq, Repr

inductive SymbolKind where
  | var (type : Handle)
  | const (type : Handle)
  | function (args : List TypedName) (returns : Option Handle)
  | udt (fields : List TypedName)
  deriving DecidableEq, Repr

/-- A declared name. The exported symbols of a file are seen by the files that import it. -/
structure Symbol where
  id : String
  kind : SymbolKind
  exported : Bool
  position : Position
  deriving DecidableEq, Repr

namespace Symbol

def isUdt (s : Symbol) : Bool :=
  match s.kind with
  | .udt _ => true
  | _ => false

/-- The type of a variable or a constant. -/
def valueType? (s : Symbol) : Option Handle :=
  match s.kind with
  | .var type => some type
  | .const type => some type
  | _ => none

def isValue (s : Symbol) : Bool := s.valueType?.isSome

/-- Appends a field to a type; any other symbol stays as it is. -/
def addField (field : TypedName) (s : Symbol) : Symbol :=
  match s.kind with
  | .udt fields => { s with kind := .udt (fields ++ [field]) }
  | _ => s

def text (s : Symbol) : String :=
  let kind := match s.kind with
    | .var _ => "var"
    | .const _ => "const"
    | .function _ _ => "fn"
    | .udt _ => "type"
  (if s.exported then "export " else "") ++ kind ++ " " ++ s.id ++ " (L" ++ s.position.text ++ ")"

end Symbol

end StoragePlan
