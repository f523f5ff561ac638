import StoragePlan.Storage.Tracker

/-!
The storage layout of a program: its data segment, and for every file its types and the stack frame
of each function.
-/

namespace StoragePlan

/-- The stack elements of a function in the order in which its scopes closed, each with the offset
it had from the top of the stack at that moment. -/
structure Frame where
  function : String
  elements : List Placed
  deriving DecidableEq, Repr

/-- Bytes for all scopes of the function at once, more than it ever needs. -/
def Frame.size (f : Frame) : Nat := totalSize (f.elements.map (·.element))

structure FileLayout where
  file : String
  udts : List Udt
  frames : List Frame
  deriving DecidableEq, Repr

structure Layout where
  dataSegment : List Placed
  dataSize : Nat
  files : List FileLayout
  deriving DecidableEq, Repr

def Layout.ofTracker (memory : Tracker) (files : List FileLayout) : Layout :=
  ⟨memory.globals, memory.dataSize, files⟩

end StoragePlan
