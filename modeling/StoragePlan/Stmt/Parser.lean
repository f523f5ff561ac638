import StoragePlan.Decl.Parser
import StoragePlan.Stmt.Basic

/-!
Reading statements and blocks. The readers take the reader `sub` of the statements nested in braces,
and `nested` ties the knot as it does for expressions.
-/

namespace StoragePlan

open Reader

namespace Block

/-- Statements up to the first token that starts none. -/
def statements (sub : Reader (Option Stmt)) : Nat → Reader (List Stmt)
  | 0 => return []
  | n + 1 => do
    match ← sub with
    | none => return []
    | some s => return s :: (← statements sub n)

def readWith? (sub : Reader (Option Stmt)) : Reader (Option Block) := do
  match ← accept? (.mark .leftBrace) with
  | none => return none
  | some opening =>
    let body ← statements sub (← get).rest.length
    let closing ← require (.mark .rightBrace)
    return some ⟨opening.position, closing.position, body⟩

def requireWith (sub : Reader (Option Stmt)) : Reader Block := do
  match ← readWith? sub with
  | some b => return b
  | none => throw ((← get).expected [.mark .leftBrace])

end Block

namespace Stmt

/-- The parts of a branch, kept apart so that an enclosing `else` can find where it ends. -/
structure Branch where
  token : Token
  condition : Expr
  thenBlock : Block
  elseBlock : Option Block

namespace Branch

def toStmt (b : Branch) : Stmt := .branch b.token b.condition b.thenBlock b.elseBlock

def closing (b : Branch) : Position := (b.elseBlock.getD b.thenBlock).closing

/-- The `else` block that a branch nested right after `else` forms. -/
def toElse (elseToken : Token) (b : Branch) : Block := ⟨elseToken.position, b.closing, [b.toStmt]⟩

end Branch

def branchWith? (sub : Reader (Option Stmt)) : Nat → Reader (Option Branch)
  | 0 => return none
  | n + 1 => do
    match ← accept? (.keyword .ifKw) with
    | none => return none
    | some token =>
      let condition ← Expr.readAfter token
      let thenBlock ← Block.requireWith sub
      match ← accept? (.keyword .elseKw) with
      | none => return some ⟨token, condition, thenBlock, none⟩
      | some elseToken =>
        match ← branchWith? sub n with
        | some inner => return some ⟨token, condition, thenBlock, some (inner.toElse elseToken)⟩
        | none => return some ⟨token, condition, thenBlock, some (← Block.requireWith sub)⟩

def loopWith? (sub : Reader (Option Stmt)) : Reader (Option Stmt) := do
  match ← accept? (.keyword .whileKw) with
  | none => return none
  | some token =>
    let condition ← Expr.readAfter token
    return some (.loop token condition (← Block.requireWith sub))

def ret? : Reader (Option Stmt) := do
  match ← accept? (.keyword .returnKw) with
  | none => return none
  | some token =>
    let value ← Expr.read?
    let _ ← require (.mark .semicolon)
    return some (.ret token value)

/-- An expression, or an assignment to one that can be assigned to. -/
def simple? : Reader (Option Stmt) := do
  match ← Expr.read? with
  | none => return none
  | some e =>
    let s ← match ← accept? (.operator .assign) with
      | none => pure (.expr e)
      | some op =>
        if e.isAssignable then
          pure (.assign e op (← Expr.readAfter op))
        else
          fail op.position .invalidAssignmentTarget
    let _ ← require (.mark .semicolon)
    return some s

/-- The alternatives in turn; the first that starts here is taken. -/
def firstOf {α : Type} : List (Reader (Option α)) → Reader (Option α)
  | [] => return none
  | r :: rest => do
    match ← r with
    | some a => return some a
    | none => firstOf rest

def readWith? (sub : Reader (Option Stmt)) : Reader (Option Stmt) := do
  let c ← get
  if c.rest.isEmpty || c.sees (.mark .rightBrace) then
    return none
  else
    firstOf
      [(·.map .varDecl) <$> VariableDecl.read? false,
       (·.map .constDecl) <$> ConstantDecl.read? false,
       (·.map .typeDef) <$> TypeDef.read? false,
       (·.map Branch.toStmt) <$> branchWith? sub c.rest.length,
       loopWith? sub,
       ret?,
       (·.map .block) <$> Block.readWith? sub,
       simple?]

/-- Statements with at most the given depth of braces. -/
def nested : Nat → Reader (Option Stmt)
  | 0 => return none
  | depth + 1 => readWith? (nested depth)

def read? : Reader (Option Stmt) := do
  nested (← get).rest.length

end Stmt

/-- A block that has to stand here. -/
def Block.read : Reader Block := Block.requireWith Stmt.read?

end StoragePlan
