import StoragePlan.SourceFile

/-!
The grammar of source files, as relations between a list of tokens and the tree it stands for. Every
token of the list has its place in the derivation, in order and once, so a tree that goes with a list
leaves no token of it out. The numbers of the expression nodes are free.

An expression is a chain of operands joined by binary operators; the relation says that a tree joins
the operands of such a chain in order, and leaves open in which way they are grouped.
-/

namespace StoragePlan

namespace Grammar

/-! ### Expressions -/

/-- The token is an integer or a text. -/
def LiteralToken (t : Token) : Prop := (∃ v, t.lexeme = .integer v) ∨ ∃ s, t.lexeme = .text s

def NameToken (t : Token) : Prop := ∃ id, t.lexeme = .name id

/-- The token can stand before an operand. -/
def UnaryToken (t : Token) : Prop :=
  t.lexeme = .operator .minus ∨ t.lexeme = .operator .not ∨ t.lexeme = .operator .bitNot

/-- The token can join two operands. -/
def BinaryToken (t : Token) : Prop := t.lexeme.level?.isSome = true

/-- The operand is a number that a minus turns into another number. -/
def IsNegatable (op : Token) (e : Expr) : Prop :=
  op.lexeme = .operator .minus ∧ ∃ id v p, e = .literal id ⟨.integer v, p⟩

mutual

inductive Primary : List Token → Expr → Prop
  | literal {t : Token} (id : Nat) : LiteralToken t → Primary [t] (.literal id t)
  | name {t : Token} (id : Nat) : NameToken t → Primary [t] (.ident id t)
  | call {callee l r : Token} {ts : List Token} {args : List Expr} (id : Nat) :
    NameToken callee → l.lexeme = .mark .leftParen → Arguments ts args →
    r.lexeme = .mark .rightParen → Primary (callee :: l :: ts ++ [r]) (.call id callee args)
  | paren {l r : Token} {ts : List Token} {e : Expr} :
    l.lexeme = .mark .leftParen → Expression ts e → r.lexeme = .mark .rightParen →
    Primary (l :: ts ++ [r]) e

/-- Arguments divided by commas; one more comma may end them. -/
inductive Arguments : List Token → List Expr → Prop
  | nil : Arguments [] []
  | last {ts : List Token} {e : Expr} : Expression ts e → Arguments ts [e]
  | cons {comma : Token} {ts us : List Token} {e : Expr} {args : List Expr} :
    Expression ts e → comma.lexeme = .mark .comma → Arguments us args →
    Arguments (ts ++ comma :: us) (e :: args)

/-- A primary followed by fields and subscripts. -/
inductive Suffixed : List Token → Expr → Prop
  | primary {ts : List Token} {e : Expr} : Primary ts e → Suffixed ts e
  | field {dot name : Token} {ts : List Token} {e : Expr} (id id' : Nat) :
    Suffixed ts e → dot.lexeme = .operator .dot → NameToken name →
    Suffixed (ts ++ [dot, name]) (.binary id e dot (.ident id' name))
  | index {l r : Token} {ts us : List Token} {e subscript : Expr} (id : Nat) :
    Suffixed ts e → l.lexeme = .mark .leftBracket → Expression us subscript →
    r.lexeme = .mark .rightBracket → Suffixed (ts ++ l :: us ++ [r]) (.index id e l subscript)

/-- An operand; a minus before a number makes a number that stands where the minus stands. -/
inductive Operand : List Token → Expr → Prop
  | suffixed {ts : List Token} {e : Expr} : Suffixed ts e → Operand ts e
  | negated {op : Token} {ts : List Token} {id : Nat} {v : Int} {p : Position} :
    op.lexeme = .operator .minus → Operand ts (.literal id ⟨.integer v, p⟩) →
    Operand (op :: ts) (.literal id ⟨.integer (-v), op.position⟩)
  | applied {op : Token} {ts : List Token} {e : Expr} (id : Nat) :
    UnaryToken op → Operand ts e → ¬ IsNegatable op e → Operand (op :: ts) (.unary id op e)

inductive Expression : List Token → Expr → Prop
  | operand {ts : List Token} {e : Expr} : Operand ts e → Expression ts e
  | joined {op : Token} {ts us : List Token} {left right : Expr} (id : Nat) :
    Expression ts left → BinaryToken op → Expression us right →
    Expression (ts ++ op :: us) (.binary id left op right)

end

/-! ### Declarations -/

/-- Dimensions `[n]`. -/
inductive Dimensions : List Token → List (Int × Position) → Prop
  | nil : Dimensions [] []
  | cons {l n r : Token} {d : Int} {ts : List Token} {dims : List (Int × Position)} :
    l.lexeme = .mark .leftBracket → n.lexeme = .integer d → r.lexeme = .mark .rightBracket →
    Dimensions ts dims → Dimensions (l :: n :: r :: ts) ((d, n.position) :: dims)

/-- A built-in type or the name of one, and its dimensions. -/
inductive TypeRef : List Token → Annotation → Prop
  | mk {name : Token} {ts : List Token} {dims : List (Int × Position)} :
    (∃ p, name.lexeme = .primitive p) ∨ NameToken name → Dimensions ts dims →
    TypeRef (name :: ts) ⟨name, dims⟩

/-- The declaration `name: type`. -/
inductive Typed : List Token → Field → Prop
  | mk {name colon : Token} {ts : List Token} {a : Annotation} :
    NameToken name → colon.lexeme = .mark .colon → TypeRef ts a →
    Typed (name :: colon :: ts) ⟨name, a⟩

/-- Fields or parameters divided by commas; one more comma may end them. -/
inductive Fields : List Token → List Field → Prop
  | nil : Fields [] []
  | last {ts : List Token} {f : Field} : Typed ts f → Fields ts [f]
  | cons {comma : Token} {ts us : List Token} {f : Field} {fs : List Field} :
    Typed ts f → comma.lexeme = .mark .comma → Fields us fs → Fields (ts ++ comma :: us) (f :: fs)

inductive TypeDefinition (exported : Bool) : List Token → TypeDef → Prop
  | mk {kw name l r : Token} {ts : List Token} {fs : List Field} :
    kw.lexeme = .keyword .typeKw → NameToken name → l.lexeme = .mark .leftBrace → Fields ts fs →
    r.lexeme = .mark .rightBrace →
    TypeDefinition exported (kw :: name :: l :: ts ++ [r]) ⟨exported, name, fs⟩

inductive VariableDeclaration (exported : Bool) : List Token → VariableDecl → Prop
  | plain {kw semicolon : Token} {ts : List Token} {f : Field} :
    kw.lexeme = .keyword .varKw → Typed ts f → semicolon.lexeme = .mark .semicolon →
    VariableDeclaration exported (kw :: ts ++ [semicolon]) ⟨exported, f.name, f.annotation, none⟩
  | valued {kw assign semicolon : Token} {ts us : List Token} {f : Field} {e : Expr} :
    kw.lexeme = .keyword .varKw → Typed ts f → assign.lexeme = .operator .assign →
    Expression us e → semicolon.lexeme = .mark .semicolon →
    VariableDeclaration exported (kw :: ts ++ assign :: us ++ [semicolon])
      ⟨exported, f.name, f.annotation, some e⟩

inductive ConstantDeclaration (exported : Bool) : List Token → ConstantDecl → Prop
  | mk {kw assign semicolon : Token} {ts us : List Token} {f : Field} {e : Expr} :
    kw.lexeme = .keyword .constKw → Typed ts f → assign.lexeme = .operator .assign →
    Expression us e → semicolon.lexeme = .mark .semicolon →
    ConstantDeclaration exported (kw :: ts ++ assign :: us ++ [semicolon])
      ⟨exported, f.name, f.annotation, e⟩

/-! ### Statements -/

mutual

inductive Statement : List Token → Stmt → Prop
  | varDecl {ts : List Token} {d : VariableDecl} :
    VariableDeclaration false ts d → Statement ts (.varDecl d)
  | constDecl {ts : List Token} {d : ConstantDecl} :
    ConstantDeclaration false ts d → Statement ts (.constDecl d)
  | typeDef {ts : List Token} {d : TypeDef} : TypeDefinition false ts d → Statement ts (.typeDef d)
  | branch {ts : List Token} {b : Stmt.Branch} : Conditional ts b → Statement ts b.toStmt
  | loop {kw : Token} {ts us : List Token} {condition : Expr} {body : Block} :
    kw.lexeme = .keyword .whileKw → Expression ts condition → Braces us body →
    Statement (kw :: ts ++ us) (.loop kw condition body)
  | ret {kw semicolon : Token} :
    kw.lexeme = .keyword .returnKw → semicolon.lexeme = .mark .semicolon →
    Statement [kw, semicolon] (.ret kw none)
  | retValue {kw semicolon : Token} {ts : List Token} {e : Expr} :
    kw.lexeme = .keyword .returnKw → Expression ts e → semicolon.lexeme = .mark .semicolon →
    Statement (kw :: ts ++ [semicolon]) (.ret kw (some e))
  | block {ts : List Token} {b : Block} : Braces ts b → Statement ts (.block b)
  | expr {semicolon : Token} {ts : List Token} {e : Expr} :
    Expression ts e → semicolon.lexeme = .mark .semicolon →
    Statement (ts ++ [semicolon]) (.expr e)
  | assign {op semicolon : Token} {ts us : List Token} {target e : Expr} :
    Expression ts target → target.isAssignable = true → op.lexeme = .operator .assign →
    Expression us e → semicolon.lexeme = .mark .semicolon →
    Statement (ts ++ op :: us ++ [semicolon]) (.assign target op e)

inductive Statements : List Token → List Stmt → Prop
  | nil : Statements [] []
  | cons {ts us : List Token} {s : Stmt} {ss : List Stmt} :
    Statement ts s → Statements us ss → Statements (ts ++ us) (s :: ss)

inductive Braces : List Token → Block → Prop
  | mk {l r : Token} {ts : List Token} {body : List Stmt} :
    l.lexeme = .mark .leftBrace → Statements ts body → r.lexeme = .mark .rightBrace →
    Braces (l :: ts ++ [r]) ⟨l.position, r.position, body⟩

inductive Conditional : List Token → Stmt.Branch → Prop
  | plain {kw : Token} {ts us : List Token} {condition : Expr} {b : Block} :
    kw.lexeme = .keyword .ifKw → Expression ts condition → Braces us b →
    Conditional (kw :: ts ++ us) ⟨kw, condition, b, none⟩
  | orElse {kw other : Token} {ts us vs : List Token} {condition : Expr} {b b' : Block} :
    kw.lexeme = .keyword .ifKw → Expression ts condition → Braces us b →
    other.lexeme = .keyword .elseKw → Braces vs b' →
    Conditional (kw :: ts ++ us ++ other :: vs) ⟨kw, condition, b, some b'⟩
  | orIf {kw other : Token} {ts us vs : List Token} {condition : Expr} {b : Block}
      {inner : Stmt.Branch} :
    kw.lexeme = .keyword .ifKw → Expression ts condition → Braces us b →
    other.lexeme = .keyword .elseKw → Conditional vs inner →
    Conditional (kw :: ts ++ us ++ other :: vs) ⟨kw, condition, b, some (inner.toElse other)⟩

end

/-! ### Files -/

inductive FunctionDefinition (exported : Bool) : List Token → FunctionDef → Prop
  | plain {kw name l r : Token} {ts us : List Token} {params : List Field} {body : Block} :
    kw.lexeme = .keyword .fnKw → NameToken name → l.lexeme = .mark .leftParen →
    Fields ts params → r.lexeme = .mark .rightParen → Braces us body →
    FunctionDefinition exported (kw :: name :: l :: ts ++ r :: us)
      ⟨exported, name, params, none, body⟩
  | returning {kw name l r arrow : Token} {ts us vs : List Token} {params : List Field}
      {a : Annotation} {body : Block} :
    kw.lexeme = .keyword .fnKw → NameToken name → l.lexeme = .mark .leftParen →
    Fields ts params → r.lexeme = .mark .rightParen → arrow.lexeme = .mark .arrow →
    TypeRef us a → Braces vs body →
    FunctionDefinition exported (kw :: name :: l :: ts ++ r :: arrow :: us ++ vs)
      ⟨exported, name, params, some a, body⟩

/-- A declaration at the top of a file. -/
inductive Declaration (exported : Bool) : List Token → Item → Prop
  | typeDef {ts : List Token} {d : TypeDef} :
    TypeDefinition exported ts d → Declaration exported ts (.typeDef d)
  | function {ts : List Token} {d : FunctionDef} :
    FunctionDefinition exported ts d → Declaration exported ts (.function d)
  | varDecl {ts : List Token} {d : VariableDecl} :
    VariableDeclaration exported ts d → Declaration exported ts (.varDecl d)
  | constDecl {ts : List Token} {d : ConstantDecl} :
    ConstantDeclaration exported ts d → Declaration exported ts (.constDecl d)

inductive TopLevel : List Token → Item → Prop
  | importFile {kw path semicolon : Token} {file : String} :
    kw.lexeme = .keyword .importKw → path.lexeme = .text file →
    semicolon.lexeme = .mark .semicolon → TopLevel [kw, path, semicolon] (.importFile ⟨kw, file⟩)
  | plain {ts : List Token} {item : Item} : Declaration false ts item → TopLevel ts item
  | exported {kw : Token} {ts : List Token} {item : Item} :
    kw.lexeme = .keyword .exportKw → Declaration true ts item → TopLevel (kw :: ts) item

/-- The items of a whole file. -/
inductive Module : List Token → List Item → Prop
  | nil : Module [] []
  | cons {ts us : List Token} {item : Item} {items : List Item} :
    TopLevel ts item → Module us items → Module (ts ++ us) (item :: items)

end Grammar

end StoragePlan
