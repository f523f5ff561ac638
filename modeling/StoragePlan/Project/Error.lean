import StoragePlan.Token.Cursor
import StoragePlan.Token.Scan
import StoragePlan.Typing.Error

/-!
Why a file of a project could not be compiled. The failure of an imported file is wrapped once for
every file between it and the one that was asked for.
-/

namespace StoragePlan

inductive ProjectError where
  | load (file message : String)
  | lex (file : String) (fault : LexFault)
  | parse (file : String) (fault : ParseFault)
  | semantic (file : String) (fault : SemanticFault)
  | circular (file : String) (position : Position) (cycle : List String)
  | imported (file : String) (position : Position) (target : String) (inner : ProjectError)
  deriving DecidableEq, Repr

namespace ProjectError

def file : ProjectError → String
  | load f _ | lex f _ | parse f _ | semantic f _ | circular f _ _ | imported f _ _ _ => f

/-- The files from the one that was asked for down to the one that failed. -/
def chain : ProjectError → List String
  | imported f _ _ inner => f :: inner.chain
  | e => [e.file]

/-- The failure at the end of the chain. -/
def rootCause : ProjectError → ProjectError
  | imported _ _ _ inner => inner.rootCause
  | e => e

def message : ProjectError → String
  | load f reason => f ++ ": could not load: " ++ reason
  | lex f fault => f ++ ": " ++ fault.message
  | parse f fault => f ++ ": " ++ fault.message
  | semantic f fault => f ++ ": " ++ fault.message
  | circular f p cycle =>
    f ++ ": L" ++ p.text ++ ": Circular import: " ++ " -> ".intercalate cycle
  | imported f p target inner =>
    f ++ ": L" ++ p.text ++ ": Could not import " ++ target ++ "\n" ++ inner.message

/-- The exit code that reports a failure. -/
def exitCode : ProjectError → Nat
  | semantic _ _ => 1
  | load _ _ => 2
  | parse _ _ => 3
  | lex _ _ => 5
  | circular _ _ _ => 6
  | imported _ _ _ _ => 6

end ProjectError

end StoragePlan
