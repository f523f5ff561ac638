import StoragePlan.Check.Decl

/-!
Checking statements and the bodies of functions.
-/

namespace StoragePlan

namespace Check

def condition (e : Expr) : Check Unit := do
  let t ← value e
  if t.isInteger then pure () else fail e.position (.invalidCondition t)

/-- The variable that an assignment changes. -/
def rootOf (target : Expr) (op : Token) : Except SemanticFault Token :=
  match target.root? with
  | some root => .ok root
  | none => .error ⟨target.position, .internal (.expectedName op.lexeme)⟩

def isConstant : Option Symbol → Bool
  | some ⟨_, .const _, _, _⟩ => true
  | _ => false

def assignment (target : Expr) (op : Token) (source : Expr) : Check Unit := do
  let t ← value target
  let root ← ofExcept (rootOf target op)
  let id ← ofExcept (nameOf root)
  if isConstant (← lookup? id) then
    fail root.position (.assignToConstant id)
  else
    let v ← value source
    if t.accepts v then pure () else fail op.position (.assignmentMismatch t v)

def ret (token : Token) (result : Option Expr) : Check Unit := do
  match (← get).body with
  | none => fail token.position (.internal .outsideFunction)
  | some body =>
    match body.returns, result with
    | none, none => pure ()
    | none, some _ => fail token.position (.unexpectedReturnValue body.id)
    | some expected, none => fail token.position (.missingReturnValue body.id expected)
    | some expected, some e =>
      let found ← value e
      if expected.accepts found then pure ()
      else fail e.position (.returnMismatch body.id expected found)

mutual

def stmt : Stmt → Check Unit
  | .varDecl d => localVariable d
  | .constDecl d => constant d
  | .typeDef d => types [d]
  | .assign target op source => assignment target op source
  | .expr e => do let _ ← expr e
  | .branch _ c thenBlock none => do
    condition c
    block thenBlock
  | .branch _ c thenBlock (some elseBlock) => do
    condition c
    block thenBlock
    block elseBlock
  | .loop _ c body => do
    condition c
    block body
  | .ret token result => ret token result
  | .block b => block b

/-- A block is a scope of its own. -/
def block : Block → Check Unit
  | ⟨_, _, body⟩ => do
    openScope
    stmts body
    closeScope

def stmts : List Stmt → Check Unit
  | [] => pure ()
  | s :: rest => do
    stmt s
    stmts rest

end

end Check

/-! ### Return on every path -/

mutual

/-- Whether every path through a statement ends in a return. -/
def Stmt.alwaysReturns : Stmt → Bool
  | .ret _ _ => true
  | .block b => b.alwaysReturns
  | .branch _ _ thenBlock (some elseBlock) => thenBlock.alwaysReturns && elseBlock.alwaysReturns
  | _ => false

/-- A block returns on every path if its last statement does. -/
def Block.alwaysReturns : Block → Bool
  | ⟨_, _, body⟩ => lastReturns body

def lastReturns : List Stmt → Bool
  | [] => false
  | [s] => s.alwaysReturns
  | _ :: s :: rest => lastReturns (s :: rest)

end

namespace Check

/-! ### Functions -/

/-- Puts a parameter on the stack. -/
def pushParameter (f : Field) : Check Unit := do
  let id ← ofExcept (nameOf f.name)
  requireNew id f.name.position
  let t ← resolve f.annotation
  let size ← sizeOf t f.annotation.position
  let e ← declareValue id .var false f.name.position t size 0
  onMemory (·.push e)

/-- Checks the body of a function in one scope with its parameters, and keeps its frame. -/
def functionBody (d : FunctionDef) : Check Unit := do
  let id ← ofExcept (nameOf d.name)
  let returns ← d.returns.mapM resolve
  modify fun s => { s with body := some ⟨id, returns, []⟩ }
  openScope
  d.params.forM pushParameter
  stmts d.body.body
  if returns.isSome && !d.body.alwaysReturns then
    fail d.body.closing (.missingReturn id)
  else
    closeScope
    modify fun s =>
      { s with
        body := none
        frames := s.frames ++ (s.body.map fun b => ⟨b.id, b.released⟩).toList }

end Check

end StoragePlan
