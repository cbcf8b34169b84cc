import WordCircuit.Fault

namespace WordCircuit

/-- The order of a ring of residues. Nothing here depends on its being prime. -/
structure Modulus where
  size : Nat
  two_le : 2 ≤ size
deriving DecidableEq

namespace Modulus

/-- A modulus of at least two; smaller numbers are refused. -/
def ofInt (n : Int) : Except Fault Modulus :=
  if h : 2 ≤ n.toNat then .ok ⟨n.toNat, h⟩ else .error (.modulusTooSmall (toString n))

/-- Whether one plus one is zero, which happens for the least modulus only. -/
def isCharacteristicTwo (p : Modulus) : Bool :=
  p.size == 2

/-- The number of bits such that all integers of so many bits stay distinct
    modulo `p`. -/
def capacityBits (p : Modulus) : Nat :=
  p.size.log2

theorem size_pos (p : Modulus) : 0 < p.size :=
  Nat.lt_of_lt_of_le Nat.zero_lt_two p.two_le

end Modulus

end WordCircuit
