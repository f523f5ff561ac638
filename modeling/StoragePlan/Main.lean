import StoragePlan.Command.Run

/-!
The program. It reads every file that the input can lead to, runs the command on their texts, and
writes what comes out of it.
-/

namespace StoragePlan

namespace Program

/-- The system's account of a failure. -/
def reason : IO.Error → String
  | .noFileOrDirectory _ code text => described text code
  | .inappropriateType _ code text => described text code
  | .permissionDenied _ code text => described text code
  | .invalidArgument _ code text => described text code
  | .alreadyExists _ code text => described text code
  | .resourceExhausted _ code text => described text code
  | .resourceBusy code text => described text code
  | .hardwareFault code text => described text code
  | .otherError code text => described text code
  | e => e.toString
where
  described (text : String) (code : UInt32) : String :=
    text ++ " (os error " ++ toString code.toNat ++ ")"

def readSource (root id : String) : IO (Except String String) := do
  match sourcePath root id with
  | .error why => return .error why
  | .ok path =>
    match ← (IO.FS.withFile path .read (·.readBinToEnd)).toBaseIO with
    | .error e => return .error (path ++ ": " ++ reason e)
    | .ok bytes =>
      match String.fromUTF8? bytes with
      | some text => return .ok text
      | none => return .error (path ++ ": stream did not contain valid UTF-8")

/-- Reads the pending files and all that they import. -/
partial def gather (root : String) (loaded : List (String × Except String String)) :
    List String → IO (List (String × Except String String))
  | [] => return loaded
  | id :: pending => do
    if (loaded.lookup id).isSome then
      gather root loaded pending
    else
      let loaded := (id, ← readSource root id) :: loaded
      gather root loaded (Command.importedFiles (Command.loadedLibrary loaded) id ++ pending)

/-- Creates the log file, if one is asked for. -/
def createLog (o : Options) : IO Unit := do
  match o.logLevel, o.logFile with
  | some _, some path =>
    match ← (IO.FS.writeFile path "").toBaseIO with
    | .ok () => pure ()
    | .error e => IO.eprint (Command.logNote path (reason e))
  | _, _ => pure ()

def finish (outcome : Command.Outcome) : IO UInt32 := do
  IO.print outcome.stdout
  IO.eprint outcome.stderr
  return outcome.exit.toUInt32

def emit (output : Option String) (text : String) : IO UInt32 := do
  match output with
  | none => finish ⟨0, text ++ "\n", ""⟩
  | some path =>
    match ← (IO.FS.writeFile path text).toBaseIO with
    | .ok () => return 0
    | .error e => finish (Command.writeFault path (reason e)).outcome

def run (o : Options) : IO UInt32 := do
  createLog o
  match splitSource o.input with
  | .error why => finish (Command.Failure.mk why Command.inputFailure).outcome
  | .ok (root, file) =>
    let loaded ← gather root [] [file]
    match Command.stages o (Command.loadedLibrary loaded) file with
    | .error f => finish f.outcome
    | .ok none => return 0
    | .ok (some text) => emit o.output text

end Program

end StoragePlan

def main (args : List String) : IO UInt32 := do
  match StoragePlan.parseArgs args with
  | .error e =>
    if e.exitCode == 0 then IO.println e.message else IO.eprintln e.message
    return e.exitCode.toUInt32
  | .ok o => StoragePlan.Program.run o
