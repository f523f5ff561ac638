import StoragePlan.Decl.Basic

/-!
Statements and blocks. Every block is a scope of its own; an `else if` is an `else` block that holds
the nested statement alone.
-/

namespace StoragePlan

mutual

inductive Stmt where
  | varDecl (decl : VariableDecl)
  | constDecl (decl : ConstantDecl)
  | typeDef (definition : TypeDef)
  | assign (target : Expr) (op : Token) (value : Expr)
  | expr (e : Expr)
  | branch (token : Token) (condition : Expr) (thenBlock : Block) (elseBlock : Option Block)
  | loop (token : Token) (condition : Expr) (body : Block)
  | ret (token : Token) (value : Option Expr)
  | block (b : Block)

inductive Block where
  | mk (opening closing : Position) (body : List Stmt)

end

namespace Block

def opening : Block → Position
  | mk o _ _ => o

def closing : Block → Position
  | mk _ c _ => c

def body : Block → List Stmt
  | mk _ _ ss => ss

end Block

def Stmt.position : Stmt → Position
  | .varDecl d => d.name.position
  | .constDecl d => d.name.position
  | .typeDef d => d.name.position
  | .assign _ op _ => op.position
  | .expr e => e.position
  | .branch t _ _ _ => t.position
  | .loop t _ _ => t.position
  | .ret t _ => t.position
  | .block b => b.opening

end StoragePlan
