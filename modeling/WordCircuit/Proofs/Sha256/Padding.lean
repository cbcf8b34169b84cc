import WordCircuit.Proofs.Sha256.Octets

namespace WordCircuit.Sha256

open Standard (bitString octetBits wordAt)

section Pieces

variable {α : Type}

theorem length_firstPieces (size count : Nat) (items : List α) :
    (firstPieces size count items).length = count := by
  induction count generalizing items with
  | zero => rfl
  | succ count ih => rw [firstPieces, List.length_cons, ih]

theorem getElem_firstPieces (size : Nat) {count i : Nat} (items : List α)
    (hi : i < (firstPieces size count items).length) :
    (firstPieces size count items)[i] = (items.drop (size * i)).take size := by
  induction count generalizing items i with
  | zero => exact absurd hi (Nat.not_lt_zero i)
  | succ count ih =>
    cases i with
    | zero => rw [Nat.mul_zero, List.drop_zero]; rfl
    | succ i =>
      simp only [firstPieces, List.getElem_cons_succ, ih, List.drop_drop, Nat.mul_succ, Nat.add_comm]

theorem length_pieces (size : Nat) (items : List α) :
    (pieces size items).length = items.length / size :=
  length_firstPieces _ _ _

theorem getElem_pieces (size : Nat) {i : Nat} (items : List α) (hi : i < (pieces size items).length) :
    (pieces size items)[i] = (items.drop (size * i)).take size :=
  getElem_firstPieces _ _ _

end Pieces

theorem length_toBigEndian (count n : Nat) : (toBigEndian count n).length = count := by
  induction count generalizing n with
  | zero => rfl
  | succ count ih => rw [toBigEndian, List.length_append, ih, List.length_singleton]

theorem getMsbD_toUInt8 (n : Nat) {k : Nat} (hk : k < 8) :
    n.toUInt8.toBitVec.getMsbD k = n.testBit (7 - k) := by
  rw [BitVec.getMsbD, decide_eq_true hk, Bool.true_and, ← BitVec.testBit_toNat, UInt8.toNat_toBitVec,
    UInt8.toNat_ofNat', Nat.testBit_mod_two_pow, decide_eq_true (by omega), Bool.true_and]

theorem getD_octetBits_toBigEndian (count n : Nat) {k : Nat} (hk : k < 8 * count) :
    (octetBits (toBigEndian count n)).getD k false = n.testBit (8 * count - 1 - k) := by
  induction count generalizing n with
  | zero => omega
  | succ count ih =>
    have hlength : (octetBits (toBigEndian count (n / 256))).length = 8 * count := by
      rw [length_octetBits, length_toBigEndian]
    rw [toBigEndian, octetBits_append]
    by_cases hlt : k < 8 * count
    · rw [List.getD_append _ _ _ _ (by omega), ih _ hlt, show 256 = 2 ^ 8 from rfl, Nat.testBit_div_two_pow]
      congr 1
      omega
    · rw [List.getD_append_right _ _ _ _ (by omega), hlength, getD_octetBits, Nat.div_eq_of_lt (by omega),
        Nat.mod_eq_of_lt (by omega), List.getD_cons_zero, getMsbD_toUInt8 n (by omega)]
      congr 1
      omega

/-- Octets in big-endian order have the bits of the number in theirs. -/
theorem octetBits_toBigEndian {count n : Nat} (h : n < 2 ^ (8 * count)) :
    octetBits (toBigEndian count n) = bitString (.ofNatLT n h : BitVec (8 * count)) := by
  have hlength : (octetBits (toBigEndian count n)).length = 8 * count := by
    rw [length_octetBits, length_toBigEndian]
  refine List.ext_getElem (by rw [hlength, length_bitString]) fun k hk hk' => ?_
  rw [← List.getD_eq_getElem _ false hk, ← List.getD_eq_getElem _ false hk', getD_bitString,
    getD_octetBits_toBigEndian count n (by omega), BitVec.getMsbD, decide_eq_true (by omega), Bool.true_and,
    ← BitVec.testBit_toNat, BitVec.toNat_ofNatLT]

theorem octetBits_zeros (count : Nat) :
    octetBits (List.replicate count 0) = List.replicate (8 * count) false := by
  induction count with
  | zero => rfl
  | succ count ih =>
    rw [List.replicate_succ, octetBits, List.flatMap_cons, ← octetBits, ih, Nat.mul_succ, Nat.add_comm,
      List.replicate_add]
    rfl

/-- The zeros of the standard are the seven bits after the end mark and those of whole
    octets. -/
theorem zeroBits_eq (count : Nat) : Standard.zeroBits (8 * count) = 7 + 8 * zeroCount count := by
  rw [Standard.zeroBits, Nat.find_eq_iff]
  unfold zeroCount
  refine ⟨by omega, fun k hk => by omega⟩

/-- Padding in octets is the padding of the standard, for each message that has one. -/
theorem octetBits_padOctets (message : List UInt8) (h : (octetBits message).length < 2 ^ 64) :
    octetBits (padOctets message) = Standard.padded (octetBits message) h := by
  have hmark (rest : List UInt8) :
      octetBits (0x80 :: rest) = true :: List.replicate 7 false ++ octetBits rest := rfl
  have hbits : (8 * message.length) < 2 ^ (8 * 8) := by rwa [length_octetBits] at h
  rw [padOctets, octetBits_append, octetBits_append, hmark, octetBits_zeros, octetBits_toBigEndian hbits,
    Standard.padded]
  simp only [length_octetBits, zeroBits_eq, List.replicate_add, List.cons_append]

/-- Four octets stand for the word that the standard reads at their place. -/
theorem fromBigEndian_eq_wordAt {octets : List UInt8} {start : Nat} (h : start + 4 ≤ octets.length) :
    fromBigEndian ((octets.drop start).take 4) = (wordAt (octetBits octets) (8 * start)).toNat := by
  have hlength : ((octets.drop start).take 4).length = 4 := by
    rw [List.length_take, List.length_drop]
    omega
  apply Nat.eq_of_testBit_eq
  intro k
  rw [testBit_fromBigEndian, hlength, BitVec.testBit_toNat, wordAt]
  by_cases hk : k < 32
  · rw [decide_eq_true (by omega), Bool.true_and, Bits.getLsbD_word _ hk, getD_octetBits, getD_octetBits]
    have hdiv : (8 * start + (31 - k)) / 8 = start + (31 - k) / 8 := by omega
    have hmod : (8 * start + (31 - k)) % 8 = (31 - k) % 8 := by omega
    have hget : ((octets.drop start).take 4).getD ((31 - k) / 8) 0 = octets.getD (start + (31 - k) / 8) 0 := by
      rw [List.getD_eq_getElem?_getD, List.getD_eq_getElem?_getD, List.getElem?_take_of_lt (by omega),
        List.getElem?_drop]
    rw [hdiv, hmod, ← hget]
  · rw [decide_eq_false (by omega), Bool.false_and, BitVec.getLsbD_of_ge _ _ (by omega)]

theorem length_padOctets (message : List UInt8) :
    (padOctets message).length = message.length + 1 + zeroCount message.length + 8 := by
  rw [padOctets, List.length_append, List.length_append, List.length_cons, List.length_replicate,
    length_toBigEndian]
  omega

/-- A padded message is a whole number of chunks. -/
theorem length_padOctets_mod (message : List UInt8) : (padOctets message).length % 64 = 0 := by
  rw [length_padOctets, zeroCount]
  omega

theorem length_pad (message : List UInt8) : (pad message).length = (padOctets message).length / 64 := by
  rw [pad, List.length_map, length_pieces, chunkOctets]

/-- The words of each chunk are those of the block of the standard in its place. -/
theorem getElem_pad (message : List UInt8) {i : Nat} (hi : i < (pad message).length) :
    (pad message)[i] =
      (Standard.block (octetBits (padOctets message)) i).toList.map BitVec.toNat := by
  have hmod := length_padOctets_mod message
  rw [length_pad] at hi
  simp only [pad, List.getElem_map, getElem_pieces, chunkOctets]
  generalize padOctets message = octets at hi hmod ⊢
  have hchunk : ((octets.drop (64 * i)).take 64).length = 64 := by
    rw [List.length_take, List.length_drop]
    omega
  refine List.ext_getElem ?_ fun j hj hj' => ?_
  · rw [List.length_map, length_pieces, hchunk, List.length_map, Vector.length_toList]
  · have hlt : j < 16 := by simpa using hj'
    simp only [List.getElem_map, getElem_pieces, Vector.getElem_toList, Standard.block, Vector.getElem_ofFn]
    rw [List.drop_take, List.take_take, List.drop_drop, Nat.min_eq_left (by omega),
      fromBigEndian_eq_wordAt (by omega)]
    congr 2
    omega

end WordCircuit.Sha256
