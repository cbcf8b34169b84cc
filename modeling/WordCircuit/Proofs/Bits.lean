import Mathlib.Data.Nat.Init
import WordCircuit.Bits
import WordCircuit.Proofs.Field.Residues

namespace WordCircuit.Bits

/-- The bit vector with the given bits, lowest first. -/
def word {width : Nat} (bit : Fin width → Bool) : BitVec width :=
  .ofNatLT (Nat.ofBits bit) (Nat.ofBits_lt_two_pow bit)

theorem getLsbD_word {width : Nat} (bit : Fin width → Bool) {i : Nat} (hi : i < width) :
    (word bit).getLsbD i = bit ⟨i, hi⟩ := by
  rw [word, BitVec.getLsbD, BitVec.toNat_ofNatLT, Nat.testBit_ofBits_lt bit i hi]

theorem ofBits_getLsbD {width : Nat} (v : BitVec width) :
    Nat.ofBits (fun i : Fin width => v.getLsbD i) = v.toNat := by
  have hmod := Nat.ofBits_testBit v.toNat width
  rwa [Nat.mod_eq_of_lt v.isLt] at hmod

theorem value_bool (position : Nat) (b : Bool) : value position (.bool b) = .ok b.toNat := by
  cases b <;> rfl

/-- The elements zero and one of every field count as the bits that they stand for. -/
theorem value_ofBool (position : Nat) (p : Modulus) (b : Bool) :
    value position (.element (.ofBool p b)) = .ok b.toNat := by
  have hplain : Datum.ofElement (.ofBool p b) = .int b.toNat := by
    apply congrArg Datum.int
    cases b with
    | false => exact congrArg Nat.cast ZMod.val_zero
    | true => exact congrArg Nat.cast (ZMod.val_one p.size)
  simp only [value, hplain]
  cases b <;> rfl

theorem decodeFrom_eq_ofBits {data : List Datum} {bit : Nat → Bool} :
    ∀ {position : Nat}, (∀ (i : Nat) (hi : i < data.length) (position : Nat),
      value position data[i] = .ok (bit i).toNat) →
      decodeFrom position data = .ok (Nat.ofBits fun i : Fin data.length => bit i) := by
  induction data generalizing bit with
  | nil =>
    intro position _
    rfl
  | cons first rest ih =>
    intro position hbits
    have hfirst := hbits 0 (Nat.succ_pos _) position
    have hrest : decodeFrom (position + 1) rest =
        .ok (Nat.ofBits fun i : Fin rest.length => bit (i + 1)) :=
      ih fun i hi => hbits (i + 1) (Nat.succ_lt_succ hi)
    rw [List.getElem_cons_zero] at hfirst
    rw [decodeFrom, hfirst, hrest]
    apply congrArg Except.ok
    rw [List.length_cons, Nat.ofBits_succ, Nat.add_comm]
    rfl

/-- Bits that are those of a bit vector decode to its number. -/
theorem decode_eq_toNat {data : List Datum} {width : Nat} {v : BitVec width}
    (hlength : data.length = width) (hbits : ∀ (i : Nat) (hi : i < data.length) (position : Nat),
      value position data[i] = .ok (v.getLsbD i).toNat) : decode data = .ok v.toNat := by
  subst hlength
  rw [decode, decodeFrom_eq_ofBits hbits, ofBits_getLsbD]

end WordCircuit.Bits
