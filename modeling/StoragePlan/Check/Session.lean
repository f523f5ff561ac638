import StoragePlan.Names.Registry
import StoragePlan.SourceFile
import StoragePlan.Storage.Layout
import StoragePlan.Typing.Rules
import StoragePlan.Typing.Size

/-!
The state of checking one file, and the small steps on it. Storage and names are shared by all files
of a program; they are kept as they stand when a check fails.
-/

namespace StoragePlan

/-- The types of the expressions of a file by their numbers; of two entries the newer one counts. -/
abbrev NodeTypes := List (Nat × Handle)

namespace NodeTypes

def get? (types : NodeTypes) (id : Nat) : Option Handle := types.lookup id

/-- The first entry of every number, in a list that starts with `e` and is sorted by number. -/
def firsts (e : Nat × Handle) : NodeTypes → List (Nat × Handle)
  | [] => [e]
  | f :: rest => if f.1 == e.1 then firsts e rest else e :: firsts f rest

/-- The entries that count, by number. Sorting keeps the newer of two entries before the older. -/
def entries (types : NodeTypes) : List (Nat × Handle) :=
  match types.mergeSort fun a b => a.1 ≤ b.1 with
  | [] => []
  | e :: rest => firsts e rest

end NodeTypes

/-- The function whose body is being checked. -/
structure Body where
  id : String
  returns : Option ValueType
  /-- What its closed scopes have released. -/
  released : List Placed
  deriving DecidableEq, Repr

structure Session where
  file : String
  memory : Tracker
  names : Registry
  body : Option Body
  frames : List Frame
  types : NodeTypes
  udts : List Udt
  deriving DecidableEq, Repr

abbrev Check := EStateM SemanticFault Session

namespace Check

def fail {α : Type} (p : Position) (e : SemanticError) : Check α := throw ⟨p, e⟩

def ofExcept {α : Type} : Except SemanticFault α → Check α
  | .ok a => pure a
  | .error f => throw f

/-! ### Storage and names -/

def onMemory (f : Tracker → Tracker) : Check Unit := modify fun s => { s with memory := f s.memory }

/-- Changes the names of the file. -/
def onNames (f : String → Registry → Registry) : Check Unit :=
  modify fun s => { s with names := f s.file s.names }

def declare (symbol : Symbol) : Check Unit := onNames (Registry.addSymbol · symbol)

/-- What a name means here. -/
def lookup? (id : String) : Check (Option Symbol) := do
  let s ← get
  return s.names.lookup? s.file id

def openScope : Check Unit := do
  onMemory Tracker.openScope
  onNames Registry.openScope

/-- Closes a scope; what it releases goes to the frame of the function. -/
def closeScope : Check Unit := modify fun s =>
  let (released, memory) := s.memory.closeScope
  { s with
    memory := memory
    names := s.names.closeScope s.file
    body := s.body.map fun b => { b with released := b.released ++ released } }

/-! ### Conditions on declarations -/

/-- Refuses a name that the current scope has. Outside of functions a name has to be new to the
whole program, because all files share the data segment. -/
def requireNew (id : String) (p : Position) : Check Unit := do
  let s ← get
  match s.names.current? s.file id with
  | some previous => fail p (.alreadyDeclared id previous.position)
  | none =>
    if s.body.isNone && (s.memory.find? id).isSome then fail p (.nameInUse id) else pure ()

/-- Refuses an element for which the stack, or outside of functions the data segment, has no room. -/
def requireRoom (id : String) (size : Nat) (p : Position) : Check Unit := do
  let s ← get
  let used := if s.body.isSome then s.memory.stackSize else s.memory.dataSize
  if used + size ≤ maxStorage then pure () else fail p (.outOfMemory id)

/-! ### Types -/

/-- The dimensions of an annotation, each at least one. -/
def dimensions : List (Int × Position) → Except SemanticFault (List Nat)
  | [] => .ok []
  | (d, p) :: rest =>
    if d < 1 then .error ⟨p, .invalidDimension d⟩
    else
      match dimensions rest with
      | .ok ds => .ok (d.toNat :: ds)
      | .error f => .error f

/-- The type that an annotation without its dimensions stands for in a file. -/
def baseType (names : Registry) (file : String) (a : Annotation) : Except SemanticFault ValueType :=
  match a.primitive? with
  | some p => .ok (.prim p)
  | none =>
    match names.lookup? file a.baseName with
    | none => .error ⟨a.position, .unknownType a.baseName⟩
    | some symbol =>
      if symbol.isUdt then .ok (.udt a.baseName) else .error ⟨a.position, .notAType a.baseName⟩

/-- The type that an annotation stands for. -/
def resolve (a : Annotation) : Check ValueType := do
  let s ← get
  let base ← ofExcept (baseType s.names s.file a)
  if a.isArray then
    return .array base (← ofExcept (dimensions a.dims))
  else
    return base

/-- Gives a type its handle. -/
def intern? (t : ValueType) : Check (Option Handle) := do
  let s ← get
  match s.names.types.intern? t with
  | some (h, types) =>
    set { s with names := { s.names with types := types } }
    return some h
  | none => return none

def intern (t : ValueType) (p : Position) : Check Handle := do
  match ← intern? t with
  | some h => return h
  | none => fail p (.internal (.missingType t.typeId))

def sizeFault (p : Position) : SizeError → SemanticFault
  | .recursive id => ⟨p, .recursiveType id⟩
  | .tooLarge id => ⟨p, .typeTooLarge id⟩
  | .unknownType id => ⟨p, .internal (.missingType id)⟩
  | .undefined => ⟨p, .internal (.missingType undefinedId)⟩

/-- The storage size of a type. -/
def sizeOf (t : ValueType) (p : Position) : Check Nat := do
  match t.size (← get).memory with
  | .ok n => return n
  | .error e => throw (sizeFault p e)

end Check

end StoragePlan
