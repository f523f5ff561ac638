import StoragePlan.Typing.ValueType

/-!
The table in which every type of a program has one entry. A type is referred to by the index of its
entry, its handle, and an array refers to its elements in the same way. Entries are told apart by
their sort and their type id.
-/

namespace StoragePlan

abbrev Handle := Nat

inductive SymbolType where
  | native (p : Primitive)
  | function (id : String)
  | udt (id : String)
  | array (base : Handle) (dims : List Nat)
  deriving DecidableEq, Repr

def SymbolType.sameSort : SymbolType → SymbolType → Bool
  | native _, native _ => true
  | function _, function _ => true
  | udt _, udt _ => true
  | array _ _, array _ _ => true
  | _, _ => false

structure TypeTable where
  types : List SymbolType
  deriving DecidableEq, Repr

namespace TypeTable

def empty : TypeTable := ⟨[]⟩

def get? (t : TypeTable) (h : Handle) : Option SymbolType := t.types[h]?

/-- The id of a type, following at most `n` handles from arrays to their elements. -/
def idWithin (t : TypeTable) : Nat → SymbolType → String
  | _, .native p => p.name
  | _, .function id => id
  | _, .udt id => id
  | 0, .array _ dims => undefinedId ++ dimsText dims
  | n + 1, .array base dims =>
    (match t.get? base with
      | some ty => idWithin t n ty
      | none => undefinedId) ++ dimsText dims

/-- The id of a type; no chain of handles is longer than the table. -/
def idOf (t : TypeTable) (ty : SymbolType) : String := idWithin t t.types.length ty

def typeId? (t : TypeTable) (h : Handle) : Option String := (t.get? h).map t.idOf

/-- The handle of a type, with a new entry if it has none yet. -/
def add (t : TypeTable) (ty : SymbolType) : Handle × TypeTable :=
  let id := t.idOf ty
  match t.types.findIdx? fun other => other.sameSort ty && t.idOf other == id with
  | some h => (h, t)
  | none => (t.types.length, ⟨t.types ++ [ty]⟩)

/-- The handle of a value type. What is undefined, wholly or in its elements, has none. -/
def intern? (t : TypeTable) : ValueType → Option (Handle × TypeTable)
  | .prim p => some (t.add (.native p))
  | .udt id => some (t.add (.udt id))
  | .array element dims =>
    match t.intern? element with
    | some (base, t') => some (t'.add (.array base dims))
    | none => none
  | .undefined => none

/-- The value type of a handle, following at most `n` handles. -/
def valueWithin (t : TypeTable) : Nat → Handle → ValueType
  | 0, _ => .undefined
  | n + 1, h =>
    match t.get? h with
    | some (.native p) => .prim p
    | some (.udt id) => .udt id
    | some (.array base dims) => .array (valueWithin t n base) dims
    | some (.function _) => .undefined
    | none => .undefined

def valueType (t : TypeTable) (h : Handle) : ValueType := valueWithin t t.types.length h

end TypeTable

end StoragePlan
