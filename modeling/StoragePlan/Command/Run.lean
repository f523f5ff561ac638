import StoragePlan.Command.Args
import StoragePlan.Command.Disk
import StoragePlan.Command.Path
import StoragePlan.Document.Json
import StoragePlan.Document.Yaml
import StoragePlan.Project.Basic

/-!
A run of the command: read the input file and what it imports, stop after the stage that was asked
for, and write the layout.
-/

namespace StoragePlan

namespace Command

/-- The exit code for a layout that could not be written. -/
def writeFailure : Nat := 4

/-- The exit code for an input path without a file name. -/
def inputFailure : Nat := 2

/-- What a run leaves behind. -/
structure Outcome where
  exit : Nat
  stdout : String
  stderr : String
  deriving DecidableEq, Repr

/-- Why a run ends early: its message and its exit code. -/
structure Failure where
  message : String
  exit : Nat
  deriving DecidableEq, Repr

def Failure.ofProject (e : ProjectError) : Failure := ⟨e.message, e.exitCode⟩

def Failure.outcome (f : Failure) : Outcome := ⟨f.exit, "", f.message ++ "\n"⟩

/-- The layout in a format. -/
def layoutText (emit : Emit) (l : Layout) : String :=
  match emit with
  | .yaml => (Document.ofLayout l).toYaml
  | .json => (Document.ofLayout l).toJson

/-- Runs the stages on a file of a library; answers the layout to write, if one is asked for. -/
def stages (o : Options) (lib : Library) (file : String) : Except Failure (Option String) :=
  match o.stopAfter with
  | some .lexer =>
    match Project.tokenize lib file with
    | .ok _ => .ok none
    | .error e => .error (.ofProject e)
  | some .parser =>
    match Project.load lib file with
    | .ok _ => .ok none
    | .error e => .error (.ofProject e)
  | stop =>
    match Project.compile lib file .empty with
    | .error e _ => .error (.ofProject e)
    | .ok _ p =>
      if stop.isSome then .ok none else .ok (o.emit.map (layoutText · p.layout))

/-- The note on a log file that could not be created. The run goes on without it. -/
def logNote (path reason : String) : String :=
  "Failed to configure logger: " ++ path ++ ": " ++ reason ++ "\n"

/-- The failure to write the layout to a path. -/
def writeFault (path reason : String) : Failure := ⟨path ++ ": " ++ reason, writeFailure⟩

/-! ### Files read beforehand -/

/-- A library of files that were read, or could not be read, beforehand. -/
def loadedLibrary (loaded : List (String × Except String String)) : Library where
  load id := (loaded.lookup id).getD (.error ("no source for " ++ id))
  limit := loaded.length + 1

/-- The files that a file of a library imports; none if it does not parse. -/
def importedFiles (lib : Library) (id : String) : List String :=
  match Project.load lib id with
  | .ok source => source.imports.map (·.file)
  | .error _ => []

/-! ### Runs on a disk -/

/-- The source files of a disk below `root`. An import takes more than one character of some file,
which bounds how many files imports can lead to. -/
def library (d : Disk) (root : String) : Library where
  load id :=
    match sourcePath root id with
    | .error reason => .error reason
    | .ok path =>
      match d.read path with
      | .ok text => .ok text
      | .error e => .error (path ++ ": " ++ e.message)
  limit := (d.files.flatMap (·.2.toList)).length + 2

/-- Creates the log file, empty, if one is asked for: the note on a failure and the disk. -/
def createLog (o : Options) (d : Disk) : String × Disk :=
  match o.logLevel, o.logFile with
  | some _, some path =>
    match d.write path "" with
    | .ok d => ("", d)
    | .error e => (logNote path e.message, d)
  | _, _ => ("", d)

/-- Writes the layout to the output file or to standard output. -/
def emitTo (output : Option String) (text : String) (d : Disk) : Outcome × Disk :=
  match output with
  | none => (⟨0, text ++ "\n", ""⟩, d)
  | some path =>
    match d.write path text with
    | .ok d => (⟨0, "", ""⟩, d)
    | .error e => ((writeFault path e.message).outcome, d)

/-- The run after the log file is set up. -/
def runOn (o : Options) (d : Disk) : Outcome × Disk :=
  match splitSource o.input with
  | .error reason => ((Failure.mk reason inputFailure).outcome, d)
  | .ok (root, file) =>
    match stages o (library d root) file with
    | .error f => (f.outcome, d)
    | .ok none => (⟨0, "", ""⟩, d)
    | .ok (some text) => emitTo o.output text d

/-- A whole run on a disk, and the disk afterwards. -/
def run (o : Options) (d : Disk) : Outcome × Disk :=
  let (note, d) := createLog o d
  let (outcome, d) := runOn o d
  ({ outcome with stderr := note ++ outcome.stderr }, d)

end Command

end StoragePlan
