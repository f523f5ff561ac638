import StoragePlan.Check.Stmt

/-!
Checking a file: first its types, then the names of its functions, variables and constants in the
order of the text, then the bodies of its functions. So a function may be called before the place
where it is defined.
-/

namespace StoragePlan

/-- What is kept of a file that is right. -/
structure VerifiedFile where
  file : String
  frames : List Frame
  types : NodeTypes
  udts : List Udt
  deriving DecidableEq, Repr

namespace Check

def item : Item → Check Unit
  | .function d => functionName d
  | .varDecl d => globalVariable d
  | .constDecl d => constant d
  | .importFile _ => pure ()
  | .typeDef _ => pure ()

def file (f : SourceFile) : Check Unit := do
  types f.types
  f.items.forM item
  f.functions.forM functionBody

end Check

/-- The outcome of checking a file, with storage and names afterwards. -/
structure Checked where
  result : Except SemanticFault VerifiedFile
  memory : Tracker
  names : Registry

/-- Checks a file against storage and names. Where it fails, the scopes that it opened are closed
again; what it declared at the top level stays. -/
def verify (file : String) (memory : Tracker) (names : Registry) (source : SourceFile) : Checked :=
  let names := names.addFile file
  match Check.file source ⟨file, memory, names, none, [], [], []⟩ with
  | .ok _ s => ⟨.ok ⟨file, s.frames, s.types, s.udts⟩, s.memory, s.names⟩
  | .error f s =>
    ⟨.error f, s.memory.closeTo memory.depth, s.names.closeTo file (names.depth file)⟩

end StoragePlan
