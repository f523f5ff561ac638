/-!
A place in a source text: line and column, both counted from one in characters.
-/

namespace StoragePlan

structure Position where
  line : Nat
  column : Nat
  deriving DecidableEq, Repr

namespace Position

/-- The place of the first character of every text. -/
def start : Position := ⟨1, 1⟩

instance : Inhabited Position := ⟨start⟩

/-- The place right after a character `c` that stands at `p`. -/
def next (p : Position) (c : Char) : Position :=
  if c = '\n' then ⟨p.line + 1, 1⟩ else ⟨p.line, p.column + 1⟩

def text (p : Position) : String := toString p.line ++ ":" ++ toString p.column

end Position

end StoragePlan
