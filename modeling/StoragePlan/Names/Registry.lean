import StoragePlan.Names.SymbolTable

/-!
The symbol tables of all files and the table of their types. A name is looked up in three tiers: the
open scopes of the file, innermost first, then its top level, then what the files it imports export,
in the order of the imports. A file without a table has no symbols, and changes to it are ignored.
-/

namespace StoragePlan

structure Registry where
  tables : List SymbolTable
  types : TypeTable
  deriving DecidableEq, Repr

namespace Registry

def empty : Registry := ⟨[], .empty⟩

def table? (r : Registry) (file : String) : Option SymbolTable := r.tables.find? (·.file == file)

/-- Gives a file a table, unless it has one. -/
def addFile (file : String) (r : Registry) : Registry :=
  match r.table? file with
  | some _ => r
  | none => { r with tables := r.tables ++ [.ofFile file] }

/-- Changes the table of a file. -/
def onTable (file : String) (f : SymbolTable → SymbolTable) (r : Registry) : Registry :=
  { r with tables := updateFirst (·.file == file) f r.tables }

def addOuter (file imported : String) (r : Registry) : Registry :=
  r.onTable file (·.addOuter imported)

def addSymbol (file : String) (s : Symbol) (r : Registry) : Registry := r.onTable file (·.add s)

def openScope (file : String) (r : Registry) : Registry := r.onTable file (·.openScope)

def closeScope (file : String) (r : Registry) : Registry := r.onTable file (·.closeScope)

def closeTo (file : String) (depth : Nat) (r : Registry) : Registry :=
  r.onTable file (·.closeTo depth)

/-- The number of open scopes of a file. -/
def depth (r : Registry) (file : String) : Nat := ((r.table? file).map (·.depth)).getD 0

/-- What a file exports under a name. -/
def exported? (r : Registry) (id file : String) : Option Symbol :=
  (r.table? file).bind (·.exported? id)

/-- The symbol that a name means in a file. -/
def lookup? (r : Registry) (file id : String) : Option Symbol :=
  match r.table? file with
  | none => none
  | some t =>
    match t.local? id with
    | some s => some s
    | none => t.outer.findSome? (r.exported? id)

/-- A symbol declared directly in the innermost scope of a file. -/
def current? (r : Registry) (file id : String) : Option Symbol :=
  (r.table? file).bind (·.current? id)

/-- The file whose table holds the symbol that a name means in a file: the file itself, or else the
first of its imports that exports the name. -/
def owner? (r : Registry) (file id : String) : Option String :=
  match r.table? file with
  | none => none
  | some t =>
    if (t.local? id).isSome then some file
    else t.outer.find? fun other => (r.exported? id other).isSome

/-- The symbol that a name means in a file, searched for in the table of its owner. -/
def owned? (r : Registry) (file id : String) : Option Symbol :=
  (r.owner? file id).bind fun owner =>
    (r.table? owner).bind fun t => if owner == file then t.local? id else t.exported? id

/-- Changes the symbol that a name means in a file, in the table of its owner. -/
def updateSymbol (file id : String) (f : Symbol → Symbol) (r : Registry) : Registry :=
  match r.owner? file id with
  | none => r
  | some owner =>
    r.onTable owner fun t => if owner == file then t.updateLocal id f else t.updateExported id f

/-- Appends a field to the type that a name means in a file. -/
def addField (file id : String) (field : TypedName) (r : Registry) : Registry :=
  r.updateSymbol file id (·.addField field)

def addType (ty : SymbolType) (r : Registry) : Handle × Registry :=
  let (h, types) := r.types.add ty
  (h, { r with types := types })

end Registry

end StoragePlan
