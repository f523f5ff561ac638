import StoragePlan.Storage.Element

/-!
Where every value of a program lives. Globals go to the data segment, which only grows; locals are
pushed onto the stack and leave it when the scope that holds them closes, together with the types
declared in that scope.
-/

namespace StoragePlan

/-- How many stack elements and types an open scope holds. -/
structure ScopeCount where
  elements : Nat
  udts : Nat
  deriving DecidableEq, Repr

/-- The data segment is listed oldest first; stack, scopes and types newest first. -/
structure Tracker where
  dataSegment : List Element
  stack : List Element
  scopes : List ScopeCount
  udts : List Udt
  deriving DecidableEq, Repr

namespace Tracker

def empty : Tracker := ⟨[], [], [], []⟩

/-! ### Sizes -/

def dataSize (t : Tracker) : Nat := totalSize t.dataSegment

def stackSize (t : Tracker) : Nat := totalSize t.stack

def depth (t : Tracker) : Nat := t.scopes.length

/-- The globals with their offsets. -/
def globals (t : Tracker) : List Placed := place 0 t.dataSegment

/-! ### Globals and locals -/

/-- Appends a global; its offset is the size of the data segment before. -/
def insert (e : Element) (t : Tracker) : Tracker := { t with dataSegment := t.dataSegment ++ [e] }

/-- Changes the innermost scope, if one is open. -/
def onScope (f : ScopeCount → ScopeCount) : List ScopeCount → List ScopeCount
  | [] => []
  | s :: rest => f s :: rest

def push (e : Element) (t : Tracker) : Tracker :=
  { t with
    stack := e :: t.stack
    scopes := onScope (fun s => { s with elements := s.elements + 1 }) t.scopes }

/-- Takes one element from the innermost scope that holds any. -/
def release : List ScopeCount → List ScopeCount
  | [] => []
  | s :: rest =>
    if s.elements > 0 then { s with elements := s.elements - 1 } :: rest else s :: release rest

/-- Removes the element on top of the stack. -/
def pop (t : Tracker) : Option Element × Tracker :=
  match t.stack with
  | [] => (none, t)
  | e :: rest => (some e, { t with stack := rest, scopes := release t.scopes })

/-! ### Scopes -/

def openScope (t : Tracker) : Tracker := { t with scopes := ⟨0, 0⟩ :: t.scopes }

/-- Closes the innermost scope: its elements, newest first with their offsets from the top of the
stack, and the tracker without them and without the types of the scope. -/
def closeScope (t : Tracker) : List Placed × Tracker :=
  match t.scopes with
  | [] => ([], t)
  | s :: outer =>
    (place 0 (t.stack.take s.elements),
      { t with stack := t.stack.drop s.elements, scopes := outer, udts := t.udts.drop s.udts })

/-- Closes scopes until at most `depth` are open. -/
def closeTo (depth : Nat) (t : Tracker) : Tracker :=
  go (t.scopes.length - depth) t
where
  go : Nat → Tracker → Tracker
    | 0, t => t
    | n + 1, t => go n t.closeScope.2

/-! ### Look-up -/

/-- The first of some placed elements with a name. -/
def firstNamed? (id : String) (ps : List Placed) : Option Placed :=
  ps.find? (·.element.hasId id)

/-- Looks for a name in the innermost scope only, or on the whole stack if no scope is open. -/
def findCurrent? (t : Tracker) (id : String) : Option Location :=
  let limit := (t.scopes.head?.map (·.elements)).getD t.stack.length
  (firstNamed? id (place 0 (t.stack.take limit))).map .stack

/-- Looks for a name on the stack from the top down, then in the data segment from its start. -/
def find? (t : Tracker) (id : String) : Option Location :=
  match firstNamed? id (place 0 t.stack) with
  | some p => some (.stack p)
  | none => (firstNamed? id t.globals).map .global

/-- What is stored under a name. -/
def content? (t : Tracker) (id : String) : Option Content :=
  (t.find? id).map fun l => l.element.content

/-! ### User defined types -/

def addUdt (u : Udt) (t : Tracker) : Tracker :=
  { t with
    udts := u :: t.udts
    scopes := onScope (fun s => { s with udts := s.udts + 1 }) t.scopes }

/-- The newest active type with a name. -/
def findUdt? (t : Tracker) (id : String) : Option Udt := t.udts.find? (·.id == id)

/-- The newest type with a name in the innermost scope, or of all if no scope is open. -/
def findUdtCurrent? (t : Tracker) (id : String) : Option Udt :=
  let limit := (t.scopes.head?.map (·.udts)).getD t.udts.length
  (t.udts.take limit).find? (·.id == id)

def findField? (t : Tracker) (id field : String) : Option Member :=
  (t.findUdt? id).bind (·.field? field)

def findFieldCurrent? (t : Tracker) (id field : String) : Option Member :=
  (t.findUdtCurrent? id).bind (·.field? field)

/-! ### Text -/

/-- A number set right-aligned in five columns. -/
def column (n : Nat) : String := String.ofList ((toString n).toList.leftpad 5 ' ')

def lineOf (p : Placed) : String :=
  "  " ++ column p.offset ++ ": " ++ p.element.label ++ " (" ++ p.element.content.typeId ++ ", "
    ++ toString p.element.size ++ " bytes)\n"

/-- Open scopes, innermost first, numbered from the outermost. -/
def scopeLines : List ScopeCount → String
  | [] => ""
  | s :: outer =>
    toString outer.length ++ ": Scope \x7b stack items: " ++ toString s.elements
      ++ ", udt items: " ++ toString s.udts ++ " \x7d\n" ++ scopeLines outer

def text (t : Tracker) : String :=
  "Data segment:\n" ++ String.join (t.globals.map lineOf)
    ++ "Stack:\n" ++ String.join ((place 0 t.stack).map lineOf) ++ scopeLines t.scopes

end Tracker

end StoragePlan
