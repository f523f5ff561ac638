/-!
What is kept in storage: named or anonymous elements and the user defined types that give them their
shape. Types appear by their id, such as `u8`, `Point` or `u8[4]`.
-/

namespace StoragePlan

/-- Sizes and offsets are words of 64 bits. -/
def wordLimit : Nat := 0xFFFFFFFFFFFFFFFF

/-- The sum of two words, held at the largest word. -/
def addCapped (a b : Nat) : Nat := min (a + b) wordLimit

/-- A parameter of a function or a field of a type, with the id of its type. -/
structure Member where
  id : String
  typeId : String
  deriving DecidableEq, Repr

/-- A user defined type. -/
structure Udt where
  id : String
  fields : List Member
  deriving DecidableEq, Repr

def Udt.field? (u : Udt) (id : String) : Option Member := u.fields.find? (·.id == id)

/-- The signature of a stored function. -/
structure Signature where
  id : String
  params : List Member
  returns : Option String
  deriving DecidableEq, Repr

inductive Content where
  | function (signature : Signature)
  | value (typeId : String)
  deriving DecidableEq, Repr

/-- The id of the type of a value, or the name of a function. -/
def Content.typeId : Content → String
  | function s => s.id
  | value id => id

structure Element where
  id : Option String
  content : Content
  size : Nat
  value : Int
  deriving DecidableEq, Repr

namespace Element

def named (id typeId : String) (size : Nat) (value : Int) : Element :=
  ⟨some id, .value typeId, size, value⟩

def anonymous (typeId : String) (size : Nat) (value : Int) : Element :=
  ⟨none, .value typeId, size, value⟩

/-- A function takes no storage of its own. -/
def function (s : Signature) : Element := ⟨some s.id, .function s, 0, 0⟩

def hasId (e : Element) (id : String) : Bool := e.id == some id

def label (e : Element) : String := e.id.getD "<anonymous>"

end Element

/-- An element and its offset. -/
structure Placed where
  element : Element
  offset : Nat
  deriving DecidableEq, Repr

/-- Lays elements out one after the other, the first at `offset`. -/
def place (offset : Nat) : List Element → List Placed
  | [] => []
  | e :: rest => ⟨e, offset⟩ :: place (addCapped offset e.size) rest

/-- The size of all elements together. -/
def totalSize (es : List Element) : Nat := es.foldl (fun total e => addCapped total e.size) 0

/-- Where a name was found: in the data segment, with its offset from the start of it, or on the
stack, with its offset from the top. -/
inductive Location where
  | global (p : Placed)
  | stack (p : Placed)
  deriving DecidableEq, Repr

namespace Location

def placed : Location → Placed
  | global p | stack p => p

def element (l : Location) : Element := l.placed.element

def offset (l : Location) : Nat := l.placed.offset

def isGlobal : Location → Bool
  | global _ => true
  | stack _ => false

end Location

end StoragePlan
