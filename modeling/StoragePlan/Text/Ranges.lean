/-!
Sets of code points written as ascending lists of closed ranges.
-/

namespace StoragePlan

/-- Membership in an ascending list of closed ranges; the search ends at the first range above `n`. -/
def covers : List (Nat × Nat) → Nat → Bool
  | [], _ => false
  | (lo, hi) :: rest, n => if n < lo then false else n ≤ hi || covers rest n

end StoragePlan
