import StoragePlan.Expr.Basic
import StoragePlan.Storage.Tracker
import StoragePlan.Typing.Error

/-!
The types of expressions. Operators combine the types of their operands; names and fields take
theirs from storage, and one that storage does not know has the type `undefined`, which spreads
through the expressions around it.
-/

namespace StoragePlan

namespace ValueType

/-! ### Literals -/

/-- The smallest primitive that holds an integer; what is not negative is unsigned. -/
def ofInteger (v : Int) : Primitive :=
  if 0 ≤ v then
    if v ≤ 255 then .u8 else if v ≤ 65535 then .u16 else .u32
  else
    if -128 ≤ v then .s8 else if -32768 ≤ v then .s16 else .s32

def ofLiteral (t : Token) : Except SemanticFault ValueType :=
  match t.lexeme with
  | .integer v => .ok (prim (ofInteger v))
  | .text _ => .ok (prim .string)
  | l => .error ⟨t.position, .internal (.expectedLiteral l)⟩

/-! ### Names in storage -/

/-- The type of the value with a name. -/
def ofName (id : String) (memory : Tracker) : ValueType :=
  match memory.content? id with
  | some (.value typeId) => ofId typeId
  | _ => undefined

/-- The type of a field of a value of type `left`. -/
def ofField (left : ValueType) (field : String) (memory : Tracker) : ValueType :=
  match left with
  | udt id =>
    match memory.findField? id field with
    | some f => ofId f.typeId
    | none => undefined
  | _ => undefined

/-- The type that a call of a function has. -/
def ofCall (id : String) (memory : Tracker) : ValueType :=
  match memory.content? id with
  | some (.function s) =>
    match s.returns with
    | some typeId => ofId typeId
    | none => undefined
  | _ => undefined

/-! ### Operators -/

/-- The primitive that two primitives combine to: the larger one, the right one of two equally
large, and unsigned if only one of them is signed. -/
def combine (l r : Primitive) : Primitive :=
  let larger := if l.rank > r.rank then l else r
  if l.isSigned != r.isSigned then larger.toUnsigned else larger

/-- The type of a binary operation, if its operands go together. -/
def binary? : ValueType → ValueType → Option ValueType
  | udt l, udt r => if l == r then some (udt l) else none
  | udt _, _ => none
  | undefined, _ => some undefined
  | _, undefined => some undefined
  | prim l, prim r => some (prim (combine l r))
  | _, _ => none

def ofBinary (op : Token) (left right : ValueType) : Except SemanticFault ValueType :=
  match binary? left right with
  | some t => .ok t
  | none => .error ⟨op.position, .operandMismatch op.lexeme left right⟩

/-- Whether a value of type `value` can be stored in a place of type `target` without narrowing. -/
def accepts : (target value : ValueType) → Bool
  | undefined, _ => false
  | _, undefined => false
  | udt t, udt v => t == v
  | array t ds, array v es => array t ds == array v es
  | prim .string, prim v => v == .string
  | prim t, prim v => t.isInteger && v.isInteger && v.rank ≤ t.rank
  | _, _ => false

/-- A unary operator keeps the type of its integer operand. -/
def ofUnary (op : Token) (operand : ValueType) : Except SemanticFault ValueType :=
  if operand.isUndefined then .ok undefined
  else if operand.isInteger then .ok operand
  else .error ⟨op.position, .invalidOperand op.lexeme operand⟩

def ofIndex (bracket : Token) (target subscript : ValueType) : Except SemanticFault ValueType :=
  if target.isUndefined then .ok undefined
  else
    match target.element? with
    | none => .error ⟨bracket.position, .invalidIndexTarget target⟩
    | some element =>
      if subscript.isInteger then .ok element
      else .error ⟨bracket.position, .invalidIndexType subscript⟩

end ValueType

/-- The name that a token has to carry. -/
def nameOf (t : Token) : Except SemanticFault String :=
  match t.name? with
  | some id => .ok id
  | none => .error ⟨t.position, .internal (.expectedName t.lexeme)⟩

/-- The field that the right side of an access names. -/
def fieldOf (op : Token) : Expr → Except SemanticFault String
  | .ident _ t => nameOf t
  | e => .error ⟨e.position, .internal (.expectedName op.lexeme)⟩

/-- The type of an expression in a state of storage. -/
def Expr.typeIn (memory : Tracker) : Expr → Except SemanticFault ValueType
  | .literal _ t => ValueType.ofLiteral t
  | .ident _ t => do return ValueType.ofName (← nameOf t) memory
  | .binary _ left op right => do
    let l ← left.typeIn memory
    if Expr.isAccess op then
      return l.ofField (← fieldOf op right) memory
    else
      ValueType.ofBinary op l (← right.typeIn memory)
  | .unary _ op operand => do ValueType.ofUnary op (← operand.typeIn memory)
  | .call _ callee _ => do return ValueType.ofCall (← nameOf callee) memory
  | .index _ target bracket subscript => do
    let t ← target.typeIn memory
    ValueType.ofIndex bracket t (← subscript.typeIn memory)

end StoragePlan
