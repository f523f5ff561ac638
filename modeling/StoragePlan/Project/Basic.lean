import StoragePlan.Check.File
import StoragePlan.Project.Error

/-!
A project compiles a file together with all files that it imports. The files share storage and
names; imports are compiled before the file that imports them, and every file at most once.
-/

namespace StoragePlan

/-- Where source texts come from. -/
structure Library where
  /-- The text of a file, or why there is none. -/
  load : String → Except String String
  /-- More than the number of different files that imports can lead to. -/
  limit : Nat

/-- A library of texts held in memory. -/
def Library.ofTexts (texts : List (String × String)) : Library where
  load file :=
    match texts.lookup file with
    | some text => .ok text
    | none => .error ("no source for " ++ file)
  limit := texts.length + 1

structure Project where
  memory : Tracker
  names : Registry
  /-- The files being compiled, each imported by the one before it. -/
  active : List String
  verified : List VerifiedFile
  deriving DecidableEq, Repr

namespace Project

def empty : Project := ⟨.empty, .empty, [], []⟩

def verified? (p : Project) (file : String) : Option VerifiedFile :=
  p.verified.find? (·.file == file)

/-- The storage layout of all files verified so far. -/
def layout (p : Project) : Layout :=
  .ofTracker p.memory (p.verified.map fun v => ⟨v.file, v.udts, v.frames⟩)

/-! ### Single files -/

def tokenize (lib : Library) (file : String) : Except ProjectError (List Token) :=
  match lib.load file with
  | .error reason => .error (.load file reason)
  | .ok text =>
    match (scan text).toExcept with
    | .error f => .error (.lex file f)
    | .ok tokens => .ok tokens

def load (lib : Library) (file : String) : Except ProjectError SourceFile :=
  match tokenize lib file with
  | .error e => .error e
  | .ok tokens =>
    match SourceFile.parse file tokens with
    | .error f => .error (.parse file f)
    | .ok source => .ok source

/-! ### Types of imported files -/

/-- Adds types to those collected; two types of one name are refused with that name. -/
def addTypes (collected : List Udt) : List Udt → Except String (List Udt)
  | [] => .ok collected
  | u :: rest =>
    if collected.any (·.id == u.id) then .error u.id else addTypes (collected ++ [u]) rest

/-- The files that a file imports. -/
def importsOf (p : Project) (file : String) : List String :=
  ((p.names.table? file).map (·.outer)).getD []

/-- Collects the types of the pending files and of all they import, the last import first, leaving
out the files visited before. -/
def collectTypes (p : Project) :
    Nat → (pending visited : List String) → List Udt → Except String (List String × List Udt)
  | _, [], visited, collected => .ok (visited, collected)
  | 0, _ :: _, visited, collected => .ok (visited, collected)
  | n + 1, file :: pending, visited, collected =>
    if visited.contains file then collectTypes p n pending visited collected
    else
      match p.verified? file with
      | none => collectTypes p n pending visited collected
      | some v =>
        match addTypes collected v.udts with
        | .error id => .error id
        | .ok collected =>
          collectTypes p n ((p.importsOf file).reverse ++ pending) (visited ++ [file]) collected

/-- Every visited file puts its imports on the list once, so this many files are pending at most. -/
def pendingLimit (p : Project) : Nat := (p.names.tables.flatMap (·.outer)).length + 1

/-- The types of all files that the imports of `file` lead to. -/
def importedTypes (p : Project) (file : String) (visited : List String) (collected : List Udt) :
    List Import → Except ProjectError (List Udt)
  | [] => .ok collected
  | i :: rest =>
    match collectTypes p p.pendingLimit [i.file] visited collected with
    | .error id => .error (.semantic file ⟨i.token.position, .nameInUse id⟩)
    | .ok (visited, collected) => importedTypes p file visited collected rest

end Project

/-! ### Compiling -/

abbrev Compile := EStateM ProjectError Project

namespace Compile

def ofExcept {α : Type} : Except ProjectError α → Compile α
  | .ok a => pure a
  | .error e => throw e

/-- Runs a step for an imported file; its failure is wrapped. -/
def wrapping (file : String) (i : Import) (step : Compile Unit) : Compile Unit := fun p =>
  match step p with
  | .ok u p => .ok u p
  | .error e p => .error (.imported file i.token.position i.file e) p

/-- Compiles the imports of `file`, the last of the active files, with the step `sub`. -/
def imports (sub : String → Compile Unit) (file : String) : List Import → Compile Unit
  | [] => pure ()
  | i :: rest => do
    let active := (← get).active
    if active.contains i.file then
      throw (.circular file i.token.position (active.dropWhile (· != i.file) ++ [i.file]))
    else
      wrapping file i (sub i.file)
      modify fun p => { p with names := p.names.addOuter file i.file }
      imports sub file rest

/-- Verifies a file whose imports are verified. The types they lead to are active meanwhile. -/
def check (file : String) (source : SourceFile) : Compile Unit := do
  let p ← get
  let udts ← ofExcept (p.importedTypes file [] [] source.imports)
  let memory := udts.foldl (fun m u => m.addUdt u) p.memory.openScope
  let done := verify file memory p.names source
  let memory := done.memory.closeScope.2
  match done.result with
  | .ok v => set { p with memory := memory, names := done.names, verified := p.verified ++ [v] }
  | .error f => do
    set { p with memory := memory, names := done.names }
    throw (.semantic file f)

/-- Runs a step while `file` is active, as the last of the active files. -/
def whileActive (file : String) (step : Compile Unit) : Compile Unit := fun p =>
  match step { p with active := p.active ++ [file] } with
  | .ok u p => .ok u { p with active := p.active.dropLast }
  | .error e p => .error e { p with active := p.active.dropLast }

/-- Compiles the imports of a file that is active, then the file. -/
def sourceWith (sub : String → Compile Unit) (file : String) (source : SourceFile) :
    Compile Unit := do
  modify fun p => { p with names := p.names.addFile file }
  imports sub file source.imports
  check file source

/-- Compiles a file; the first argument bounds how many more files can become active. -/
def fileWithin (lib : Library) : Nat → String → Compile Unit
  | 0, file => throw (.load file "too many nested imports")
  | n + 1, file => do
    if ((← get).verified? file).isSome then
      pure ()
    else
      let source ← ofExcept (Project.load lib file)
      whileActive file (sourceWith (fileWithin lib n) file source)

end Compile

/-- Compiles a file and all it imports. What succeeds before a failure stays. -/
def Project.compile (lib : Library) (file : String) : Compile Unit := do
  modify fun p => { p with active := [] }
  Compile.fileWithin lib lib.limit file

end StoragePlan
