import StoragePlan.Check.Session

/-!
Checking expressions: every name has to be declared and of the right kind, and every operand has to
have a value. The type of each node is recorded under its number.
-/

namespace StoragePlan

namespace Check

/-- Records the type of a node; a call without a value has none to record. -/
def record (id : Nat) (t : ValueType) : Check ValueType := do
  match ← intern? t with
  | some h => modify fun s => { s with types := (id, h) :: s.types }
  | none => pure ()
  return t

/-- Refuses an expression without a value. -/
def requireValue (e : Expr) (t : ValueType) : Check ValueType :=
  if t.isUndefined then fail e.position (.noValue e.text) else pure t

/-- The type of a variable or constant. -/
def nameType (token : Token) : Check ValueType := do
  let id ← ofExcept (nameOf token)
  match ← lookup? id with
  | none => fail token.position (.undeclared id)
  | some symbol =>
    if symbol.isValue then
      let memory := (← get).memory
      if (memory.find? id).isSome then
        return ValueType.ofName id memory
      else
        fail token.position (.internal (.missingStorage id))
    else
      fail token.position (.notAValue id)

/-- The type of a field of a value of type `left`. -/
def fieldType (left : ValueType) (op : Token) (right : Expr) : Check ValueType := do
  let field ← ofExcept (fieldOf op right)
  let memory := (← get).memory
  match left with
  | .udt id =>
    if (memory.findField? id field).isSome then
      return left.ofField field memory
    else
      fail right.position (.unknownField id field)
  | _ => fail op.position (.accessOnNonUdt left)

/-- The parameters of the function that a call names. -/
def parametersOf (callee : Token) (id : String) : Check (List TypedName) := do
  match ← lookup? id with
  | none => fail callee.position (.undeclared id)
  | some symbol =>
    match symbol.kind with
    | .function params _ => return params
    | _ => fail callee.position (.notAFunction id)

/-- The type of a call whose arguments are right. -/
def callType (callee : Token) (id : String) : Check ValueType := do
  let memory := (← get).memory
  if (memory.find? id).isSome then
    return ValueType.ofCall id memory
  else
    fail callee.position (.internal (.missingStorage id))

mutual

def expr : Expr → Check ValueType
  | .literal id token => do record id (← ofExcept (ValueType.ofLiteral token))
  | .ident id token => do record id (← nameType token)
  | .binary id left op right => do
    let l ← requireValue left (← expr left)
    if Expr.isAccess op then
      record id (← fieldType l op right)
    else
      let r ← requireValue right (← expr right)
      record id (← ofExcept (ValueType.ofBinary op l r))
  | .unary id op operand => do
    let t ← requireValue operand (← expr operand)
    record id (← ofExcept (ValueType.ofUnary op t))
  | .call id callee args => do
    let name ← ofExcept (nameOf callee)
    let params ← parametersOf callee name
    if params.length = args.length then
      arguments name 1 args params
      record id (← callType callee name)
    else
      fail callee.position (.wrongArgumentCount name params.length args.length)
  | .index id target bracket subscript => do
    let t ← requireValue target (← expr target)
    let i ← requireValue subscript (← expr subscript)
    record id (← ofExcept (ValueType.ofIndex bracket t i))

/-- Checks the arguments of a call, the first of which has the given number. -/
def arguments (callee : String) (number : Nat) : List Expr → List TypedName → Check Unit
  | arg :: args, param :: params => do
    let found ← requireValue arg (← expr arg)
    let expected := (← get).names.types.valueType param.type
    if expected.accepts found then
      arguments callee (number + 1) args params
    else
      fail arg.position (.argumentMismatch callee number expected found)
  | _, _ => pure ()

end

/-- Checks an expression that is used as a value. -/
def value (e : Expr) : Check ValueType := do requireValue e (← expr e)

end Check

end StoragePlan
