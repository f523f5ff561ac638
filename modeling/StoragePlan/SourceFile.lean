import StoragePlan.Stmt.Parser

/-!
A source file: imports and the declarations at its top level.
-/

namespace StoragePlan

structure Import where
  token : Token
  file : String
  deriving DecidableEq, Repr

/-- The definition `fn name(parameters) [-> type] { … }`. -/
structure FunctionDef where
  exported : Bool
  name : Token
  params : List Field
  returns : Option Annotation
  body : Block

inductive Item where
  | importFile (i : Import)
  | typeDef (d : TypeDef)
  | function (d : FunctionDef)
  | varDecl (d : VariableDecl)
  | constDecl (d : ConstantDecl)

structure SourceFile where
  file : String
  items : List Item

namespace SourceFile

def imports (f : SourceFile) : List Import :=
  f.items.filterMap fun
    | .importFile i => some i
    | _ => none

def types (f : SourceFile) : List TypeDef :=
  f.items.filterMap fun
    | .typeDef d => some d
    | _ => none

def functions (f : SourceFile) : List FunctionDef :=
  f.items.filterMap fun
    | .function d => some d
    | _ => none

end SourceFile

/-! ### Reading -/

open Reader

def Import.read? : Reader (Option Import) := do
  match ← accept? (.keyword .importKw) with
  | none => return none
  | some token =>
    match ← accept? (.text "") with
    | some ⟨.text file, _⟩ =>
      let _ ← require (.mark .semicolon)
      return some ⟨token, file⟩
    | _ => fail token.position .expectedImportPath

def FunctionDef.read? (exported : Bool) : Reader (Option FunctionDef) := do
  match ← accept? (.keyword .fnKw) with
  | none => return none
  | some token =>
    let name ← nameAfter token
    let params ← Field.readBetween .leftParen .rightParen
    let returns ← match ← accept? (.mark .arrow) with
      | some arrow => some <$> Annotation.readAfter arrow
      | none => pure none
    return some ⟨exported, name, params, returns, ← Block.read⟩

/-- A declaration other than an import. -/
def Item.declaration? (exported : Bool) : Reader (Option Item) :=
  Stmt.firstOf
    [(·.map .typeDef) <$> TypeDef.read? exported,
     (·.map .function) <$> FunctionDef.read? exported,
     (·.map .varDecl) <$> VariableDecl.read? exported,
     (·.map .constDecl) <$> ConstantDecl.read? exported]

def Item.read? : Reader (Option Item) := do
  match ← Import.read? with
  | some i => return some (.importFile i)
  | none =>
    match ← accept? (.keyword .exportKw) with
    | none => declaration? false
    | some _ =>
      match ← declaration? true with
      | some item => return some item
      | none =>
        let c ← get
        fail c.position (.exportNotAllowed c.found?)

/-- Items up to the end of the file. -/
def Item.readAll : Nat → Reader (List Item)
  | 0 => return []
  | n + 1 => do
    if (← get).rest.isEmpty then
      return []
    else
      match ← Item.read? with
      | some item => return item :: (← Item.readAll n)
      | none =>
        let c ← get
        fail c.position (.expectedDeclaration c.found?)

namespace SourceFile

/-- Reads the tokens of the file `file`. -/
def parse (file : String) (tokens : List Token) : Except ParseFault SourceFile :=
  match Item.readAll tokens.length (.ofTokens tokens) with
  | .ok items _ => .ok ⟨file, items⟩
  | .error f _ => .error f

end SourceFile

end StoragePlan
