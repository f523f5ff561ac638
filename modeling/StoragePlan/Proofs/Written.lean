import StoragePlan.Check.Decl
import StoragePlan.Proofs.Bytes

/-!
What declarations write. The type, the type id and the value of a declaration stand in its syntax, and
its size follows from the types that are active where it stands; so the element that storage gets for
it, and the type that a definition makes active, are functions of the syntax and of these types.
-/

namespace StoragePlan

/-- The type that an annotation writes without its dimensions. -/
def Annotation.base (a : Annotation) : ValueType :=
  match a.primitive? with
  | some p => .prim p
  | none => .udt a.baseName

/-- The type that an annotation writes. -/
def Annotation.type (a : Annotation) : ValueType :=
  if a.isArray then .array a.base (a.dims.map (·.1.toNat)) else a.base

/-- The element of a value with this name, annotation and initial value, among the types `us`. -/
def Annotation.element (us : List Udt) (name : Token) (a : Annotation) (v : Int) : Element :=
  .named (name.name?.getD "") a.type.typeId (a.type.bytes us) v

/-- The value of an integer literal. -/
def Expr.integer? : Expr → Option Int
  | .literal _ ⟨.integer v, _⟩ => some v
  | _ => none

def VariableDecl.element (us : List Udt) (d : VariableDecl) : Element :=
  d.annotation.element us d.name ((d.value.bind (·.integer?)).getD 0)

def ConstantDecl.element (us : List Udt) (d : ConstantDecl) : Element :=
  d.annotation.element us d.name (d.value.integer?.getD 0)

/-- The element of a parameter. -/
def Field.element (us : List Udt) (f : Field) : Element := f.annotation.element us f.name 0

/-- The field of a type as storage records it. -/
def Field.member (f : Field) : Member := ⟨f.name.name?.getD "", f.annotation.type.typeId⟩

/-- The type that a definition makes active. -/
def TypeDef.udt (d : TypeDef) : Udt := ⟨d.name.name?.getD "", d.fields.map (·.member)⟩

/-- The signature that a definition writes. -/
def FunctionDef.signature (d : FunctionDef) : Signature :=
  ⟨d.name.name?.getD "", d.params.map (·.member), d.returns.map (·.type.typeId)⟩

/-- The type annotation of a variable or constant. -/
def Item.annotation? : Item → Option Annotation
  | .varDecl d => some d.annotation
  | .constDecl d => some d.annotation
  | _ => none

/-- A function takes no bytes; a value takes the exact number of bytes that the type of its declaration
has in the session. -/
def Sized (i : Item) (s : Session) (e : Element) : Prop :=
  match e.content with
  | .function _ => e.size = 0
  | .value typeId => ∃ a, i.annotation? = some a ∧ typeId = a.type.typeId ∧
    e.size = a.type.bytes s.memory.udts

theorem storedValue_eq (e : Expr) : Check.storedValue e = e.integer?.getD 0 := by
  cases e with
  | literal id token =>
    obtain ⟨lexeme, p⟩ := token
    cases lexeme <;> rfl
  | _ => rfl

theorem map_storedValue (o : Option Expr) :
    (o.map Check.storedValue).getD 0 = (o.bind (·.integer?)).getD 0 := by
  cases o with
  | none => rfl
  | some e => exact storedValue_eq e

end StoragePlan
