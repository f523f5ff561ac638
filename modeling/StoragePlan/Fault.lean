import StoragePlan.Text.Position

/-!
An error tied to the place in the source text that caused it.
-/

namespace StoragePlan

structure Fault (ε : Type) where
  position : Position
  cause : ε
  deriving DecidableEq, Repr

/-- The diagnostic: the place, then the wording of the cause. -/
def Fault.message {ε : Type} [ToString ε] (f : Fault ε) : String :=
  "L" ++ f.position.text ++ ": " ++ toString f.cause

end StoragePlan
