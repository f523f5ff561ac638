/-!
A disk: the texts of files under a working directory. A place on it is the list of names that lead
to it; `..` at its start leads above the working directory and `/` to the root. Reading and writing
part over a slash after the last name, which asks for a directory: who reads looks at what is there,
who writes is refused whatever is there.
-/

namespace StoragePlan

inductive DiskError where
  | missing
  | notDirectory
  | isDirectory
  | nameTooLong
  | nulInName
  deriving DecidableEq, Repr

def DiskError.message : DiskError → String
  | missing => "No such file or directory (os error 2)"
  | notDirectory => "Not a directory (os error 20)"
  | isDirectory => "Is a directory (os error 21)"
  | nameTooLong => "File name too long (os error 36)"
  | nulInName => "file name contained an unexpected NUL byte"

abbrev Place := List String

structure Disk where
  files : List (Place × String)
  deriving DecidableEq, Repr

/-- What stands at a place in a directory that exists. -/
inductive Entry where
  | file (text : String)
  | directory
  | free
  deriving DecidableEq, Repr

/-- A path taken apart: where it starts, the names before its last one, the last name, and whether a
slash follows it. -/
structure Route where
  start : Place
  parents : List String
  last : String
  slash : Bool
  deriving DecidableEq, Repr

namespace Route

/-- The most bytes that a path can take. -/
def pathLimit : Nat := 4095

/-- The names of a path. A path of slashes alone leads to the root itself. -/
def ofNames (path : String) : Route :=
  let names := (path.splitOn "/").filter (· != "")
  ⟨if path.startsWith "/" then ["/"] else [], names.dropLast, names.getLastD ".",
    path.endsWith "/"⟩

def ofPath (path : String) : Except DiskError Route :=
  if path.toList.contains '\x00' then .error .nulInName
  else if path.isEmpty then .error .missing
  else if path.utf8ByteSize > pathLimit then .error .nameTooLong
  else .ok (ofNames path)

/-- Whether the last name stands for a directory, whatever the disk holds. -/
def endsInDots (r : Route) : Bool := r.last == "." || r.last == ".."

end Route

namespace Disk

/-- The most bytes that a name can take. -/
def nameLimit : Nat := 255

/-- The place that holds nothing, whatever is written to it. -/
def nullDevice : Place := ["/", "dev", "null"]

/-- Files given by paths below the working directory, beside the null device. -/
def ofTexts (texts : List (String × String)) : Disk :=
  let files := texts.map fun (path, text) =>
    ((path.splitOn "/").filter fun s => s != "" && s != ".", text)
  ⟨files ++ [(nullDevice, "")]⟩

def text? (d : Disk) (place : Place) : Option String := d.files.lookup place

/-- Places that hold files, and the working directory with all above it, are directories. -/
def isDirectory (d : Disk) (place : Place) : Bool :=
  place.all (· == "..") || place == ["/"]
    || d.files.any fun f => place.isPrefixOf f.1 && place != f.1

/-- What a directory has under a name. -/
def entry (d : Disk) (directory : Place) (name : String) : Except DiskError Entry :=
  let place := directory ++ [name]
  if name.utf8ByteSize > nameLimit then .error .nameTooLong
  else
    match d.text? place with
    | some text => .ok (.file text)
    | none => .ok (if d.isDirectory place then .directory else .free)

/-- The directory above a place. -/
def above (place : Place) : Place :=
  if place == ["/"] then place
  else if place.all (· == "..") then place ++ [".."]
  else place.dropLast

/-- Goes from a directory to the directory that a name leads to. -/
def enter (d : Disk) (directory : Place) (name : String) : Except DiskError Place :=
  if name == "." then .ok directory
  else if name == ".." then .ok (above directory)
  else
    match d.entry directory name with
    | .error e => .error e
    | .ok .directory => .ok (directory ++ [name])
    | .ok (.file _) => .error .notDirectory
    | .ok .free => .error .missing

/-- The directory in which the last name of a route is looked up. -/
def parent (d : Disk) (r : Route) : Except DiskError Place := r.parents.foldlM d.enter r.start

def readFrom (d : Disk) (r : Route) : Except DiskError String := do
  let directory ← d.parent r
  if r.endsInDots then
    throw .isDirectory
  else
    match ← d.entry directory r.last with
    | .file text => if r.slash then throw .notDirectory else return text
    | .directory => throw .isDirectory
    | .free => throw .missing

def read (d : Disk) (path : String) : Except DiskError String := do
  d.readFrom (← Route.ofPath path)

/-- The disk with a text at a place, over what it held before. -/
def put (d : Disk) (place : Place) (text : String) : Disk :=
  if place == nullDevice then d else ⟨(place, text) :: d.files.filter (·.1 != place)⟩

def writeTo (d : Disk) (r : Route) (text : String) : Except DiskError Disk := do
  let directory ← d.parent r
  if r.endsInDots || r.slash then
    throw .isDirectory
  else
    match ← d.entry directory r.last with
    | .directory => throw .isDirectory
    | _ => return d.put (directory ++ [r.last]) text

/-- Writes a file, over what it held before. -/
def write (d : Disk) (path text : String) : Except DiskError Disk := do
  d.writeTo (← Route.ofPath path) text

end Disk

end StoragePlan
