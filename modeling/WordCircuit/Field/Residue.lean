import WordCircuit.Field.Modulus

namespace WordCircuit

/-- A residue in canonical form together with its modulus. Two residues are the
    same exactly if both parts are. -/
structure Residue where
  modulus : Modulus
  value : Nat
  value_lt : value < modulus.size
deriving DecidableEq

namespace Residue

/-- The residue of an integer of either sign. -/
def ofInt (p : Modulus) (n : Int) : Residue where
  modulus := p
  value := (n % p.size).toNat
  value_lt := by
    have hpos := p.size_pos
    have hne : (p.size : Int) ≠ 0 := by omega
    have hlo := Int.emod_nonneg n hne
    have hhi := Int.emod_lt_of_pos n (show (0 : Int) < p.size by omega)
    omega

def isZero (r : Residue) : Bool := r.value == 0

def isOne (r : Residue) : Bool := r.value == 1

/-- Whether the residue is that of the integer. -/
def represents (r : Residue) (n : Int) : Bool :=
  ofInt r.modulus n == r

end Residue

end WordCircuit
