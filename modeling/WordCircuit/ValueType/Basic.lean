namespace WordCircuit

/-- The types of value that a circuit computes with: a truth value, or an
    unsigned word of eight or thirty-two bits. -/
inductive ValueType where
  | bool
  | u8
  | u32
deriving DecidableEq

namespace ValueType

def label : ValueType → String
  | .bool => "bool"
  | .u8 => "u8"
  | .u32 => "u32"

/-- How the type itself is displayed. -/
def display : ValueType → String
  | .bool => "ValueType.BOOL"
  | .u8 => "ValueType.U8"
  | .u32 => "ValueType.U32"

/-- The number of bits of a value. -/
def width : ValueType → Nat
  | .bool => 1
  | .u8 => 8
  | .u32 => 32

/-- The value with every bit set, which is the largest one. -/
def mask (ty : ValueType) : Nat :=
  (1 <<< ty.width) - 1

def isWord : ValueType → Bool
  | .bool => false
  | .u8 | .u32 => true

end ValueType

end WordCircuit
