import StoragePlan.Expr.Basic
import StoragePlan.Token.Cursor

/-!
Reading expressions. Each level of the grammar takes the reader `sub` of the expressions nested in
brackets as an argument, and `nested` ties the knot: one more level of nesting reads at least one
more token, so as many levels as there are tokens left are enough.

* primary: a literal, a name, a call, or an expression in parentheses
* suffixed: a primary followed by fields `.x` and subscripts `[i]`
* unary: `-`, `!` and `~` before a suffixed expression
* binary: unary expressions joined by operators, tighter levels first and each level to the left

A reader answers `none`, and leaves the cursor alone, where no expression starts.
-/

namespace StoragePlan

namespace Expr

open Reader

/-- An expression that has to follow the token `after`. -/
def required (sub : Reader (Option Expr)) (after : Token) : Reader Expr := do
  match ← sub with
  | some e => return e
  | none => fail (← get).position (.expectedExprAfter after.lexeme)

/-- Arguments divided by commas; one more comma may end them. -/
def arguments (sub : Reader (Option Expr)) : Nat → Reader (List Expr)
  | 0 => return []
  | n + 1 => do
    match ← sub with
    | none => return []
    | some e =>
      match ← accept? (.mark .comma) with
      | none => return [e]
      | some _ => return e :: (← arguments sub n)

def callOf (sub : Reader (Option Expr)) : Reader (Option Expr) := do
  match ← acceptName? with
  | none => return none
  | some callee =>
    let _ ← require (.mark .leftParen)
    let args ← arguments sub (← get).rest.length
    let _ ← require (.mark .rightParen)
    return some (.call (← newId) callee args)

def primary (sub : Reader (Option Expr)) : Reader (Option Expr) := do
  match ← accept? (.mark .leftParen) with
  | some paren =>
    let e ← required sub paren
    let _ ← require (.mark .rightParen)
    return some e
  | none =>
    if (← get).seesAll [.name "", .mark .leftParen] then
      callOf sub
    else
      match ← acceptAny? [.integer 0, .text ""] with
      | some t => return some (.literal (← newId) t)
      | none =>
        match ← acceptName? with
        | some t => return some (.ident (← newId) t)
        | none => return none

/-- Fields and subscripts after `e`. -/
def suffixes (sub : Reader (Option Expr)) : Nat → Expr → Reader Expr
  | 0, e => return e
  | n + 1, e => do
    match ← accept? (.operator .dot) with
    | some op =>
      match ← acceptName? with
      | some field =>
        let right := Expr.ident (← newId) field
        suffixes sub n (.binary (← newId) e op right)
      | none => fail op.position (.expectedNameAfter (.operator .dot))
    | none =>
      match ← accept? (.mark .leftBracket) with
      | some bracket =>
        let subscript ← required sub bracket
        let _ ← require (.mark .rightBracket)
        suffixes sub n (.index (← newId) e bracket subscript)
      | none => return e

def suffixed (sub : Reader (Option Expr)) : Reader (Option Expr) := do
  match ← primary sub with
  | none => return none
  | some e => return some (← suffixes sub (← get).rest.length e)

/-- Applies a unary operator. The negation of an integer literal is again a literal. -/
def applyUnary (op : Token) (operand : Expr) : Reader Expr :=
  match op.lexeme, operand with
  | .operator .minus, .literal id ⟨.integer v, _⟩ =>
    return .literal id ⟨.integer (-v), op.position⟩
  | _, _ => return .unary (← newId) op operand

def unaryOf (sub : Reader (Option Expr)) : Nat → Reader (Option Expr)
  | 0 => suffixed sub
  | n + 1 => do
    match ← acceptAny? [.operator .minus, .operator .not, .operator .bitNot] with
    | none => suffixed sub
    | some op =>
      match ← unaryOf sub n with
      | none => fail op.position (.expectedExprAfter op.lexeme)
      | some operand => return some (← applyUnary op operand)

/-- An operand of a binary operator. -/
def operandOf (sub : Reader (Option Expr)) : Reader (Option Expr) := do
  unaryOf sub (← get).rest.length

/-- Whether a token is a binary operator that binds at least as tightly as `least`. -/
def bindsFrom (least : Nat) (t : Token) : Bool := t.lexeme.level?.any (least ≤ ·)

/-- Joins `left` with the operators of level `least` and above that follow it. -/
def climb (operand : Reader (Option Expr)) : Nat → Nat → Expr → Reader Expr
  | 0, _, left => return left
  | n + 1, least, left => do
    match ← nextIf? (bindsFrom least) with
    | none => return left
    | some op =>
      match ← operand with
      | none => fail op.position (.expectedExprAfter op.lexeme)
      | some first =>
        let right ← climb operand n (op.lexeme.level?.getD 0 + 1) first
        climb operand n least (.binary (← newId) left op right)

/-- An expression whose binary operators are all of level `least` and above. -/
def binaryOf (sub : Reader (Option Expr)) (least : Nat) : Reader (Option Expr) := do
  match ← operandOf sub with
  | none => return none
  | some first => return some (← climb (operandOf sub) (← get).rest.length least first)

/-- Expressions with at most the given depth of brackets. -/
def nested : Nat → Reader (Option Expr)
  | 0 => return none
  | depth + 1 => binaryOf (nested depth) 1

def read? : Reader (Option Expr) := do
  nested (← get).rest.length

def readAfter (after : Token) : Reader Expr := required read? after

end Expr

end StoragePlan
