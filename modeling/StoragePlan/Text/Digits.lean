/-!
Reading numbers from their digits.
-/

namespace StoragePlan

/-- The value of a digit in a base of at most sixteen. -/
def digit? (base : Nat) (c : Char) : Option Nat :=
  let value? :=
    if '0' ≤ c && c ≤ '9' then some (c.toNat - '0'.toNat)
    else if 'a' ≤ c && c ≤ 'f' then some (c.toNat - 'a'.toNat + 10)
    else if 'A' ≤ c && c ≤ 'F' then some (c.toNat - 'A'.toNat + 10)
    else none
  value?.filter (· < base)

/-- Reads digits, most significant first, onto the value `acc` read so far. -/
def digits? (base : Nat) (acc : Nat) : List Char → Option Nat
  | [] => some acc
  | c :: rest =>
    match digit? base c with
    | some d => digits? base (acc * base + d) rest
    | none => none

end StoragePlan
