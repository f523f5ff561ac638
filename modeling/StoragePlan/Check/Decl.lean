import StoragePlan.Check.Expr

/-!
Checking declarations: each finds room in storage, and its name becomes known only when all else is
right.
-/

namespace StoragePlan

namespace Check

/-! ### Types -/

/-- Makes the name of a type known. Type ids carry no scope, so the name has to differ from that of
every active type. -/
def typeName (d : TypeDef) : Check Unit := do
  let id ← ofExcept (nameOf d.name)
  requireNew id d.name.position
  if ((← get).memory.findUdt? id).isSome then
    fail d.name.position (.nameInUse id)
  else
    declare ⟨id, .udt [], d.exported, d.name.position⟩

/-- Adds fields to the type `id`, which has the fields `known` so far. -/
def typeFields (id : String) (known : List Member) : List Field → Check (List Member)
  | [] => return known
  | f :: rest => do
    let name ← ofExcept (nameOf f.name)
    if known.any (·.id == name) then
      fail f.name.position (.duplicateField id name)
    else
      let t ← resolve f.annotation
      let h ← intern t f.annotation.position
      onNames (Registry.addField · id ⟨name, h⟩)
      typeFields id (known ++ [⟨name, t.typeId⟩]) rest

/-- Adds the fields of a type and makes the type active. -/
def typeBody (d : TypeDef) : Check Unit := do
  let id ← ofExcept (nameOf d.name)
  let fields ← typeFields id [] d.fields
  modify fun s =>
    { s with
      memory := s.memory.addUdt ⟨id, fields⟩
      udts := if s.body.isNone then s.udts ++ [⟨id, fields⟩] else s.udts }

/-- Refuses a type without a size. -/
def typeSize (d : TypeDef) : Check Unit := do
  let id ← ofExcept (nameOf d.name)
  let _ ← sizeOf (.udt id) d.name.position

/-- Declares types that may refer to each other: names first, then fields, then sizes. -/
def types (ds : List TypeDef) : Check Unit := do
  ds.forM typeName
  ds.forM typeBody
  ds.forM typeSize

/-! ### Variables and constants -/

/-- The integer that an initializer stores; anything but an integer literal stores zero. -/
def storedValue : Expr → Int
  | .literal _ ⟨.integer v, _⟩ => v
  | _ => 0

/-- Checks an initializer of the declaration `id` that has to be a literal. -/
def literalFor (id : String) (target : ValueType) (init : Expr) : Check Unit :=
  match init with
  | .literal _ _ => do
    let t ← expr init
    if target.accepts t then pure () else fail init.position (.assignmentMismatch target t)
  | _ => fail init.position (.initializerNotLiteral id)

/-- Checks an initializer that may be any value. -/
def valueFor (target : ValueType) (init : Expr) : Check Unit := do
  let t ← value init
  if target.accepts t then pure () else fail init.position (.assignmentMismatch target t)

/-- Makes a variable or constant known and answers the element that stores it. -/
def declareValue (id : String) (kind : Handle → SymbolKind) (exported : Bool) (p : Position)
    (t : ValueType) (size : Nat) (v : Int) : Check Element := do
  requireRoom id size p
  let h ← intern t p
  declare ⟨id, kind h, exported, p⟩
  return .named id t.typeId size v

def globalVariable (d : VariableDecl) : Check Unit := do
  let id ← ofExcept (nameOf d.name)
  requireNew id d.name.position
  let t ← resolve d.annotation
  let size ← sizeOf t d.annotation.position
  d.value.forM (literalFor id t)
  let v := (d.value.map storedValue).getD 0
  let e ← declareValue id .var d.exported d.name.position t size v
  onMemory (·.insert e)

def localVariable (d : VariableDecl) : Check Unit := do
  let id ← ofExcept (nameOf d.name)
  requireNew id d.name.position
  let t ← resolve d.annotation
  let size ← sizeOf t d.annotation.position
  d.value.forM (valueFor t)
  let v := (d.value.map storedValue).getD 0
  let e ← declareValue id .var false d.name.position t size v
  onMemory (·.push e)

/-- A constant lives on the stack inside of functions and in the data segment outside. -/
def constant (d : ConstantDecl) : Check Unit := do
  let id ← ofExcept (nameOf d.name)
  requireNew id d.name.position
  let t ← resolve d.annotation
  let size ← sizeOf t d.annotation.position
  literalFor id t d.value
  let e ← declareValue id .const d.exported d.name.position t size (storedValue d.value)
  if (← get).body.isSome then onMemory (·.push e) else onMemory (·.insert e)

/-! ### Functions -/

/-- A parameter as a symbol and as stored. -/
def parameter (f : Field) : Check (TypedName × Member) := do
  let id ← ofExcept (nameOf f.name)
  let t ← resolve f.annotation
  let h ← intern t f.annotation.position
  return (⟨id, h⟩, ⟨id, t.typeId⟩)

/-- The type of the value a function returns, as a handle and by its id. -/
def returnType (a : Annotation) : Check (Handle × String) := do
  let t ← resolve a
  let h ← intern t a.position
  return (h, t.typeId)

/-- Makes a function known, before any body is checked. -/
def functionName (d : FunctionDef) : Check Unit := do
  let id ← ofExcept (nameOf d.name)
  requireNew id d.name.position
  let params ← d.params.mapM parameter
  let returns ← d.returns.mapM returnType
  declare ⟨id, .function (params.map (·.1)) (returns.map (·.1)), d.exported, d.name.position⟩
  onMemory (·.insert (.function ⟨id, params.map (·.2), returns.map (·.2)⟩))

end Check

end StoragePlan
