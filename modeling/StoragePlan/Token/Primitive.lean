/-!
The built-in value types: six integers and the string, with their width in bytes and the rank that
decides which of two operands is the larger.
-/

namespace StoragePlan

inductive Primitive where
  | u8 | u16 | u32 | s8 | s16 | s32 | string
  deriving DecidableEq, Repr

namespace Primitive

def name : Primitive → String
  | u8 => "u8"
  | u16 => "u16"
  | u32 => "u32"
  | s8 => "s8"
  | s16 => "s16"
  | s32 => "s32"
  | string => "string"

def all : List Primitive := [u8, u16, u32, s8, s16, s32, string]

/-- The primitive that a word names. -/
def ofWord? (word : String) : Option Primitive := all.find? (·.name == word)

/-- Bytes of storage; a string is stored as a 32-bit pointer to its characters. -/
def size : Primitive → Nat
  | u8 | s8 => 1
  | u16 | s16 => 2
  | u32 | s32 | string => 4

def rank : Primitive → Nat
  | u8 | s8 => 0
  | u16 | s16 => 1
  | u32 | s32 | string => 2

def isSigned : Primitive → Bool
  | s8 | s16 | s32 => true
  | _ => false

def isUnsigned : Primitive → Bool
  | u8 | u16 | u32 => true
  | _ => false

def isInteger (p : Primitive) : Bool := p.isSigned || p.isUnsigned

/-- The unsigned primitive of the same width. -/
def toUnsigned : Primitive → Primitive
  | s8 => u8
  | s16 => u16
  | s32 => u32
  | p => p

end Primitive

end StoragePlan
