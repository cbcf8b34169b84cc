import WordCircuit.Field.Modulus

namespace WordCircuit

/-- A modulus with a label, which is for display only. -/
structure PrimeField where
  modulus : Modulus
  label : String

namespace PrimeField

/-- The field with two elements, where addition is exclusive or. -/
def gf2 : PrimeField := ⟨⟨2, by decide⟩, "gf2"⟩

/-- The field of order 2^64 - 2^32 + 1. -/
def goldilocks : PrimeField := ⟨⟨18446744069414584321, by decide⟩, "goldilocks"⟩

/-- The scalar field of the bn128 curve. -/
def bn254 : PrimeField where
  modulus :=
    ⟨21888242871839275222246405745257275088548364400416034343698204186575808495617, by decide⟩
  label := "bn254"

end PrimeField

end WordCircuit
