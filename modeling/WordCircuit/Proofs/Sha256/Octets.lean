import Mathlib.Data.List.GetD
import Mathlib.Data.List.Induction
import WordCircuit.Proofs.Sha256.StandardHash

namespace WordCircuit.Sha256

open Standard (bitString octetBits wordAt)

section Bits

variable {width : Nat}

theorem length_bitString (v : BitVec width) : (bitString v).length = width := by
  rw [bitString, List.length_map, List.length_range]

theorem getD_bitString (v : BitVec width) (k : Nat) : (bitString v).getD k false = v.getMsbD k := by
  by_cases hk : k < width
  · rw [List.getD_eq_getElem _ _ (by rwa [length_bitString])]
    simp [bitString]
  · rw [List.getD_eq_default _ _ (by rw [length_bitString]; omega), BitVec.getMsbD_of_ge _ _ (by omega)]

theorem octetBits_append (octets others : List UInt8) :
    octetBits (octets ++ others) = octetBits octets ++ octetBits others :=
  List.flatMap_append

theorem length_octetBits (octets : List UInt8) : (octetBits octets).length = 8 * octets.length := by
  induction octets with
  | nil => rfl
  | cons octet octets ih =>
    rw [octetBits, List.flatMap_cons, List.length_append, length_bitString, ← octetBits, ih,
      List.length_cons]
    omega

/-- Every eight bits are those of one octet. -/
theorem getD_octetBits (octets : List UInt8) (k : Nat) :
    (octetBits octets).getD k false = (octets.getD (k / 8) 0).toBitVec.getMsbD (k % 8) := by
  induction octets generalizing k with
  | nil => simp [octetBits]
  | cons octet octets ih =>
    rw [octetBits, List.flatMap_cons, ← octetBits]
    by_cases hk : k < 8
    · rw [List.getD_append _ _ _ _ (by rwa [length_bitString]), getD_bitString,
        Nat.div_eq_of_lt hk, Nat.mod_eq_of_lt hk, List.getD_cons_zero]
    · rw [List.getD_append_right _ _ _ _ (by rw [length_bitString]; omega), length_bitString, ih,
        show k / 8 = (k - 8) / 8 + 1 by omega, show (k - 8) % 8 = k % 8 by omega, List.getD_cons_succ]

end Bits

theorem fromBigEndian_append (octets : List UInt8) (octet : UInt8) :
    fromBigEndian (octets ++ [octet]) = 2 ^ 8 * fromBigEndian octets + octet.toNat := by
  rw [fromBigEndian, List.foldl_append]
  rfl

/-- The bits of the number that octets stand for are theirs, from the last one on. -/
theorem testBit_fromBigEndian (octets : List UInt8) (k : Nat) :
    (fromBigEndian octets).testBit k =
      (decide (k < 8 * octets.length) && (octetBits octets).getD (8 * octets.length - 1 - k) false) := by
  induction octets using List.reverseRecOn generalizing k with
  | nil => simp [fromBigEndian]
  | append_singleton octets octet ih =>
    rw [fromBigEndian_append, Nat.testBit_two_pow_mul_add _ octet.toNat_lt, octetBits_append,
      List.length_append, List.length_singleton]
    by_cases hk : k < 8
    · rw [if_pos hk, List.getD_append_right _ _ _ _ (by rw [length_octetBits]; omega), getD_octetBits,
        length_octetBits]
      have hindex : 8 * (octets.length + 1) - 1 - k - 8 * octets.length = 7 - k := by omega
      rw [hindex, Nat.div_eq_of_lt (by omega), Nat.mod_eq_of_lt (by omega), List.getD_cons_zero,
        decide_eq_true (by omega), Bool.true_and, BitVec.getMsbD, decide_eq_true (by omega), Bool.true_and,
        show 8 - 1 - (7 - k) = k by omega, ← BitVec.testBit_toNat, UInt8.toNat_toBitVec]
    · rw [if_neg hk, ih]
      by_cases hlt : k < 8 * (octets.length + 1)
      · rw [decide_eq_true hlt, decide_eq_true (by omega),
          List.getD_append _ _ _ _ (by rw [length_octetBits]; omega)]
        congr 2
        omega
      · rw [decide_eq_false hlt, decide_eq_false (by omega), Bool.false_and, Bool.false_and]

end WordCircuit.Sha256
