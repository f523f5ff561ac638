import StoragePlan.Decl.Basic
import StoragePlan.Expr.Parser

/-!
Reading type annotations and declarations. As with expressions, `none` means that the next token
starts no such thing and that nothing was read.
-/

namespace StoragePlan

open Reader

namespace Annotation

/-- Dimensions `[n]`, as many as follow. -/
def dimensions : Nat → Reader (List (Int × Position))
  | 0 => return []
  | n + 1 => do
    match ← accept? (.mark .leftBracket) with
    | none => return []
    | some bracket =>
      match ← accept? (.integer 0) with
      | some ⟨.integer d, position⟩ =>
        let _ ← require (.mark .rightBracket)
        return (d, position) :: (← dimensions n)
      | _ => fail bracket.position .expectedDimension

def read? : Reader (Option Annotation) := do
  match ← acceptAny? [.primitive .u8, .name ""] with
  | none => return none
  | some name => return some ⟨name, ← dimensions (← get).rest.length⟩

def readAfter (after : Token) : Reader Annotation := do
  match ← read? with
  | some a => return a
  | none => fail (← get).position (.expectedTypeAfter after.lexeme)

/-- A colon and the annotation after it. -/
def readAfterColon : Reader Annotation := do
  let colon ← require (.mark .colon)
  readAfter colon

end Annotation

/-- The name that has to follow the token `after`. -/
def nameAfter (after : Token) : Reader Token := do
  match ← acceptName? with
  | some name => return name
  | none => fail (← get).position (.expectedNameAfter after.lexeme)

/-- Fields `name: type` divided by commas; one more comma may end them. -/
def Field.readMany : Nat → Reader (List Field)
  | 0 => return []
  | n + 1 => do
    match ← acceptName? with
    | none => return []
    | some name =>
      let annotation ← Annotation.readAfterColon
      match ← accept? (.mark .comma) with
      | none => return [⟨name, annotation⟩]
      | some _ => return ⟨name, annotation⟩ :: (← Field.readMany n)

/-- Fields between an opening and a closing mark. -/
def Field.readBetween (opening closing : Mark) : Reader (List Field) := do
  let _ ← require (.mark opening)
  let fields ← Field.readMany (← get).rest.length
  let _ ← require (.mark closing)
  return fields

def TypeDef.read? (exported : Bool) : Reader (Option TypeDef) := do
  match ← accept? (.keyword .typeKw) with
  | none => return none
  | some token =>
    let name ← nameAfter token
    let fields ← Field.readBetween .leftBrace .rightBrace
    return some ⟨exported, name, fields⟩

def VariableDecl.read? (exported : Bool) : Reader (Option VariableDecl) := do
  match ← accept? (.keyword .varKw) with
  | none => return none
  | some token =>
    let name ← nameAfter token
    let annotation ← Annotation.readAfterColon
    let value ← match ← accept? (.operator .assign) with
      | some assign => some <$> Expr.readAfter assign
      | none => pure none
    let _ ← require (.mark .semicolon)
    return some ⟨exported, name, annotation, value⟩

def ConstantDecl.read? (exported : Bool) : Reader (Option ConstantDecl) := do
  match ← accept? (.keyword .constKw) with
  | none => return none
  | some token =>
    let name ← nameAfter token
    let annotation ← Annotation.readAfterColon
    let assign ← require (.operator .assign)
    let value ← Expr.readAfter assign
    let _ ← require (.mark .semicolon)
    return some ⟨exported, name, annotation, value⟩

end StoragePlan
