import StoragePlan.Token.Basic

/-!
Expressions. Every node has a number, unique within its file, and keeps the tokens it was read from.
Access to a field is a binary node with the operator `.` whose right side is the field's name.
-/

namespace StoragePlan

inductive Expr where
  | literal (id : Nat) (token : Token)
  | ident (id : Nat) (token : Token)
  | unary (id : Nat) (op : Token) (operand : Expr)
  | binary (id : Nat) (left : Expr) (op : Token) (right : Expr)
  | call (id : Nat) (callee : Token) (args : List Expr)
  | index (id : Nat) (target : Expr) (bracket : Token) (subscript : Expr)
  deriving Repr

namespace Expr

def id : Expr → Nat
  | literal id _ | ident id _ | unary id _ _ | binary id _ _ _ | call id _ _ | index id _ _ _ => id

/-- Where diagnostics point: the token itself, the operator, the callee or the bracket. -/
def position : Expr → Position
  | literal _ t | ident _ t | unary _ t _ | binary _ _ t _ | call _ t _ | index _ _ t _ => t.position

/-- Whether an operator token is the access to a field. -/
def isAccess (op : Token) : Bool := op.lexeme == .operator .dot

/-- The variable behind something that can be assigned to: `p` for `p`, `p.x` and `p.xs[2].y`. -/
def root? : Expr → Option Token
  | ident _ t => some t
  | binary _ left op _ => if isAccess op then left.root? else none
  | index _ target _ _ => target.root?
  | _ => none

def isAssignable (e : Expr) : Bool := e.root?.isSome

/-- The text of a literal or a name. -/
def leafText (t : Token) : String :=
  match t.lexeme with
  | .integer i => toString i
  | .text s => "\"" ++ s ++ "\""
  | .name id => id
  | l => l.describe

mutual

/-- The expression with all its operators in parentheses. -/
def text : Expr → String
  | literal _ t => leafText t
  | ident _ t => leafText t
  | unary _ op operand => "(" ++ op.lexeme.describe ++ operand.text ++ ")"
  | binary _ left op right =>
    if isAccess op then left.text ++ "." ++ right.text
    else "(" ++ left.text ++ " " ++ op.lexeme.describe ++ " " ++ right.text ++ ")"
  | call _ callee args => callee.name?.getD "?" ++ "(" ++ argsText args ++ ")"
  | index _ target _ subscript => target.text ++ "[" ++ subscript.text ++ "]"

def argsText : List Expr → String
  | [] => ""
  | e :: rest => e.text ++ moreArgsText rest

def moreArgsText : List Expr → String
  | [] => ""
  | e :: rest => ", " ++ e.text ++ moreArgsText rest

end

end Expr

end StoragePlan
