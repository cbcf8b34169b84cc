import Mathlib.Algebra.Order.Floor.Div
import Mathlib.GroupTheory.GroupAction.Ring
import WordCircuit.Proofs.Sha256.Padding

namespace WordCircuit.Sha256

section Pieces

variable {α : Type}

theorem flatten_firstPieces (size count : Nat) (items : List α) :
    (firstPieces size count items).flatten = items.take (size * count) := by
  induction count generalizing items with
  | zero => simp [firstPieces]
  | succ count ih =>
    rw [firstPieces, List.flatten_cons, ih, ← List.take_add, Nat.mul_succ, Nat.add_comm]

/-- Pieces that leave nothing over are the list again when they are put together. -/
theorem flatten_pieces {size : Nat} {items : List α} (hwhole : items.length % size = 0) :
    (pieces size items).flatten = items := by
  rw [pieces, flatten_firstPieces, Nat.mul_div_cancel' (Nat.dvd_of_mod_eq_zero hwhole), List.take_length]

theorem length_of_mem_pieces {size : Nat} {items piece : List α} (hmem : piece ∈ pieces size items) :
    piece.length = size := by
  obtain ⟨i, hi, rfl⟩ := List.mem_iff_getElem.mp hmem
  rw [getElem_pieces, List.length_take, List.length_drop]
  rw [length_pieces] at hi
  have hfits : size * (i + 1) ≤ items.length := by
    calc size * (i + 1) ≤ size * (items.length / size) := Nat.mul_le_mul_left size hi
      _ ≤ items.length := Nat.mul_div_le items.length size
  rw [Nat.mul_succ] at hfits
  omega

end Pieces

theorem fromBigEndian_lt (octets : List UInt8) : fromBigEndian octets < 256 ^ octets.length := by
  induction octets using List.reverseRecOn with
  | nil => simp [fromBigEndian]
  | append_singleton octets octet ih =>
    have hoctet := octet.toNat_lt
    rw [fromBigEndian_append, List.length_append, List.length_singleton, Nat.pow_succ]
    omega

/-- Octets are those of the number that they stand for. -/
theorem toBigEndian_fromBigEndian (octets : List UInt8) :
    toBigEndian octets.length (fromBigEndian octets) = octets := by
  induction octets using List.reverseRecOn with
  | nil => rfl
  | append_singleton octets octet ih =>
    have hoctet := octet.toNat_lt
    have hrest : (2 ^ 8 * fromBigEndian octets + octet.toNat) / 256 = fromBigEndian octets := by omega
    have hlast : (2 ^ 8 * fromBigEndian octets + octet.toNat).toUInt8 = octet := by
      apply UInt8.toNat_inj.mp
      rw [Nat.toUInt8_eq, UInt8.toNat_ofNat']
      omega
    rw [List.length_append, List.length_singleton, toBigEndian, fromBigEndian_append, hrest, ih, hlast]

theorem fromBigEndian_toBigEndian (count n : Nat) :
    fromBigEndian (toBigEndian count n) = n % 256 ^ count := by
  induction count generalizing n with
  | zero => simp [toBigEndian, fromBigEndian, Nat.mod_one]
  | succ count ih =>
    have hlast : n.toUInt8.toNat = n % 256 := by rw [Nat.toUInt8_eq, UInt8.toNat_ofNat']
    have hsplit : n % 256 ^ (count + 1) = n % 256 + 256 * (n / 256 % 256 ^ count) := by
      rw [Nat.pow_succ', Nat.mod_mul]
    rw [toBigEndian, fromBigEndian_append, ih, hlast, hsplit]
    omega

/-- A number of octets only keeps the number modulo its power of 256. -/
theorem toBigEndian_mod (count n : Nat) : toBigEndian count (n % 256 ^ count) = toBigEndian count n := by
  have hoctets := toBigEndian_fromBigEndian (toBigEndian count n)
  rwa [length_toBigEndian, fromBigEndian_toBigEndian] at hoctets

/-- The loop that appends zeros to octets as long as more is missing in the last chunk than eight
    octets. The second list is what it ends with. -/
inductive Fills : List UInt8 → List UInt8 → Prop where
  | done {octets : List UInt8} (h : octets.length % chunkOctets = chunkOctets - 8) : Fills octets octets
  | append {octets filled : List UInt8} (h : octets.length % chunkOctets ≠ chunkOctets - 8)
      (hrest : Fills (octets ++ [0]) filled) : Fills octets filled

/-- The number of zeros that the loop appends to octets. -/
def missing (octets : List UInt8) : Nat :=
  (120 - octets.length % 64) % 64

theorem missing_eq_zero_iff (octets : List UInt8) :
    missing octets = 0 ↔ octets.length % chunkOctets = chunkOctets - 8 := by
  rw [missing, chunkOctets]
  omega

theorem missing_append_zero {octets : List UInt8} (h : octets.length % chunkOctets ≠ chunkOctets - 8) :
    missing octets = missing (octets ++ [0]) + 1 := by
  rw [chunkOctets] at h
  rw [missing, missing, List.length_append, List.length_singleton]
  omega

/-- The loop ends, and it does so in one way. -/
theorem fills_iff (octets filled : List UInt8) :
    Fills octets filled ↔ filled = octets ++ List.replicate (missing octets) 0 := by
  constructor
  · intro hfills
    induction hfills with
    | done h => rw [(missing_eq_zero_iff _).mpr h, List.replicate_zero, List.append_nil]
    | append h _ ih =>
      rw [ih, missing_append_zero h, List.append_assoc, List.singleton_append, ← List.replicate_succ]
  · rintro rfl
    -- Every zero that is appended is one less that is missing, so the missing zeros are the measure.
    induction hcount : missing octets generalizing octets with
    | zero =>
      rw [List.replicate_zero, List.append_nil]
      exact .done ((missing_eq_zero_iff octets).mp hcount)
    | succ count ih =>
      have hmore : octets.length % chunkOctets ≠ chunkOctets - 8 := by
        rw [ne_eq, ← missing_eq_zero_iff, hcount]
        exact Nat.succ_ne_zero count
      rw [missing_append_zero hmore] at hcount
      have hrest := ih (octets ++ [0]) (Nat.succ.inj hcount)
      rw [List.append_assoc, List.singleton_append, ← List.replicate_succ] at hrest
      exact .append hmore hrest

theorem missing_after_mark (message : List UInt8) :
    missing (message ++ [0x80]) = zeroCount message.length := by
  rw [missing, zeroCount, List.length_append, List.length_singleton]
  omega

/-- The zeros are as few as the last chunk admits. -/
theorem isLeast_zeroCount (length : Nat) :
    IsLeast { k | (length + 1 + k + 8) % 64 = 0 } (zeroCount length) := by
  unfold zeroCount
  constructor
  · change (length + 1 + (119 - length % 64) % 64 + 8) % 64 = 0
    omega
  · intro k hk
    change (length + 1 + k + 8) % 64 = 0 at hk
    omega

theorem length_pad_eq_ceilDiv (message : List UInt8) :
    (pad message).length = (message.length + 9) ⌈/⌉ 64 := by
  rw [length_pad, length_padOctets, zeroCount, Nat.ceilDiv_eq_add_pred_div]
  omega

/-- A chunk is sixteen words of 32 bits. -/
theorem words_of_mem_pad {message : List UInt8} {chunk : List Nat} (hchunk : chunk ∈ pad message) :
    chunk.length = 16 ∧ ∀ word ∈ chunk, word < 2 ^ 32 := by
  obtain ⟨octets, hoctets, rfl⟩ := List.mem_map.mp hchunk
  constructor
  · rw [List.length_map, length_pieces, length_of_mem_pieces hoctets, chunkOctets]
  · intro word hword
    obtain ⟨piece, hpiece, rfl⟩ := List.mem_map.mp hword
    have hlt := fromBigEndian_lt piece
    rw [length_of_mem_pieces hpiece] at hlt
    exact hlt

theorem flatMap_toBigEndian_words {octets : List UInt8} (hwhole : octets.length % 4 = 0) :
    ((pieces 4 octets).map fromBigEndian).flatMap (toBigEndian 4) = octets := by
  calc ((pieces 4 octets).map fromBigEndian).flatMap (toBigEndian 4)
      = (pieces 4 octets).flatMap id := by
        rw [List.flatMap_map]
        apply List.flatMap_congr
        intro piece hpiece
        rw [← length_of_mem_pieces hpiece, toBigEndian_fromBigEndian, id]
    _ = octets := by rw [List.flatMap_id, flatten_pieces hwhole]

/-- The words of all chunks are the padded message. -/
theorem flatMap_toBigEndian_pad (message : List UInt8) :
    (pad message).flatten.flatMap (toBigEndian 4) = padOctets message := by
  have hwhole : (padOctets message).length % chunkOctets = 0 := length_padOctets_mod message
  calc (pad message).flatten.flatMap (toBigEndian 4)
      = (pieces chunkOctets (padOctets message)).flatMap fun chunk =>
          ((pieces 4 chunk).map fromBigEndian).flatMap (toBigEndian 4) := by
        rw [← List.flatMap_id, List.flatMap_assoc, pad, List.flatMap_map]
        rfl
    _ = (pieces chunkOctets (padOctets message)).flatMap id := by
        apply List.flatMap_congr
        intro chunk hchunk
        have hlength : chunk.length % 4 = 0 := by rw [length_of_mem_pieces hchunk, chunkOctets]
        rw [flatMap_toBigEndian_words hlength, id]
    _ = padOctets message := by rw [List.flatMap_id, flatten_pieces hwhole]

/-- Every message is padded as the standard says. The loop that appends the zeros ends, and it has
    appended as few of them as make the whole a multiple of a chunk. The chunks are as many as the
    message, the end mark and the length need, each is sixteen words of 32 bits, and the octets of
    the words are the message, the end mark, the zeros and the length in bits modulo 2^64. -/
theorem pad_is_standard_padding (message : List UInt8) :
    ∃ k < 64, IsLeast { k | (message.length + 1 + k + 8) % 64 = 0 } k ∧
      (∀ filled, Fills (message ++ [0x80]) filled ↔ filled = message ++ 0x80 :: List.replicate k 0) ∧
      (pad message).length = (message.length + 9) ⌈/⌉ 64 ∧
      (∀ chunk ∈ pad message, chunk.length = 16 ∧ ∀ word ∈ chunk, word < 2 ^ 32) ∧
      (pad message).flatten.flatMap (toBigEndian 4) =
        message ++ 0x80 :: List.replicate k 0 ++ toBigEndian 8 (8 * message.length % 2 ^ 64) := by
  refine ⟨zeroCount message.length, Nat.mod_lt _ (by omega), isLeast_zeroCount message.length, ?_,
    length_pad_eq_ceilDiv message, fun chunk => words_of_mem_pad, ?_⟩
  · intro filled
    rw [fills_iff, missing_after_mark, List.append_assoc, List.singleton_append]
  · rw [flatMap_toBigEndian_pad, padOctets]
    congr 1
    exact (toBigEndian_mod 8 (8 * message.length)).symm

end WordCircuit.Sha256
