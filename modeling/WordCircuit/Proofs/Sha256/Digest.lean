import WordCircuit.Proofs.Sha256.Backends
import WordCircuit.Proofs.Sha256.Padding

namespace WordCircuit.Sha256

open Standard (Word octetBits)

section Chain

variable {σ : Type} {Handle : ValueType → Type} {R : Reading σ (Handle .u32) Word}
  {b : Backend σ Handle}

/-- A backend that offers what a compression needs has constants of words. -/
theorem require_none_of_required (h : b.require .u32 required "sha256" = .ok ()) :
    b.require .u32 .none "sha256" = .ok () := by
  rw [Backend.require, Table.require] at h ⊢
  by_cases hrepresents : b.table.represents .u32 = true
  · rw [hrepresents, Table.supports_none]
    rfl
  · rw [Bool.eq_false_iff.mpr hrepresents] at h
    cases h

theorem initialWords_eq : initialWords = Standard.initialHash.toList.map BitVec.toNat := by
  decide

theorem yields_initial (h : R.SimulatesDirect b) (w : R.World) :
    R.Yields w (initial b) fun w' out =>
      List.Forall₂ (R.Reads w') out Standard.initialHash.toList := by
  refine .check (require_none_of_required h.offers) ?_
  rw [Backend.constants, initialWords_eq, List.map_map]
  apply R.yields_mapM_forall₂
  rw [List.forall₂_map_left_iff]
  exact List.forall₂_same.mpr fun v _ w' _ => h.yields_constant w' v

theorem readsChunk_pad (w : R.World) (message : List UInt8) {i : Nat}
    (hi : i < (pad message).length) :
    List.Forall₂ (ReadsChunkWord b R w) ((pad message)[i].map fun (n : Nat) => .literal n)
      (Standard.block (octetBits (padOctets message)) i).toList := by
  rw [getElem_pad, List.map_map, List.forall₂_map_left_iff]
  exact List.forall₂_same.mpr fun _ _ => rfl

/-- Under every backend that simulates direct evaluation the chaining states are the
    hash values of the standard, block after block. -/
theorem yields_hash (h : R.SimulatesDirect b) (w : R.World) (message : List UInt8)
    (hlength : (octetBits message).length < 2 ^ 64) :
    R.Yields w (hash b message) fun w' out =>
      List.Forall₂ (R.Reads w') out (Standard.hash (octetBits message) hlength).toList := by
  have hbits := octetBits_padOctets message hlength
  refine (yields_initial h w).bind fun w₁ state _ hstate => ?_
  have hloop := Frame.Yields.foldlM (F := R.toFrame) (w := w₁)
    (fun i w' out =>
      List.Forall₂ (R.Reads w') out (Standard.chain (octetBits (padOctets message)) i).toList)
    (fun state chunk => update b state (chunk.map fun (n : Nat) => .literal n))
    (pad message) hstate fun i hi w' _ _ hout =>
      yields_update h hout (readsChunk_pad w' message hi)
  have hcount : (pad message).length =
      (Standard.padded (octetBits message) hlength).length / 512 := by
    rw [length_pad, ← hbits, length_octetBits]
    omega
  rw [hbits, hcount] at hloop
  exact hloop

end Chain

/-- The octets of a word in big-endian order are those of the standard. -/
theorem toBigEndian_eq_wordOctets (v : Word) : toBigEndian 4 v.toNat = Standard.wordOctets v := by
  have hoctet (n start : Nat) (hn : n = v.toNat / 2 ^ start) :
      n.toUInt8 = .ofBitVec (v.extractLsb' start 8) := by
    apply UInt8.toNat_inj.mp
    rw [UInt8.toNat_ofNat', UInt8.toNat_ofBitVec, BitVec.extractLsb'_toNat, Nat.shiftRight_eq_div_pow, hn]
  have htoBigEndian : toBigEndian 4 v.toNat = [(v.toNat / 256 / 256 / 256).toUInt8,
    (v.toNat / 256 / 256).toUInt8, (v.toNat / 256).toUInt8, v.toNat.toUInt8] := rfl
  rw [htoBigEndian, hoctet _ 24 (by omega), hoctet _ 16 (by omega), hoctet _ 8 (by omega),
    hoctet _ 0 (by omega)]
  rfl

theorem wordOctets_natCast (v : Word) :
    wordOctets (.int v.toNat) = .ok (Standard.wordOctets v) := by
  have hle : v.toNat ≤ ValueType.u32.mask := @ValueType.toNat_le_mask .u32 v
  rw [← toBigEndian_eq_wordOctets]
  exact if_pos ⟨Int.natCast_nonneg _, by exact_mod_cast hle⟩

theorem digest_words (words : List Word) :
    digest (words.map fun v => .int v.toNat) = .ok (words.flatMap Standard.wordOctets) := by
  have hoctets : (words.map fun v => Datum.int v.toNat).mapM wordOctets =
      .ok (words.map Standard.wordOctets) := by
    apply mapM_eq_ok_of_forall₂
    rw [List.forall₂_map_left_iff, List.forall₂_map_right_iff]
    exact List.forall₂_same.mpr fun v _ => wordOctets_natCast v
  rw [digest, hoctets]
  rfl

theorem length_octetBits_lt {message : List UInt8} (h : message.length < 2 ^ 61) :
    (octetBits message).length < 2 ^ 64 := by
  rw [length_octetBits]
  omega

/-- Direct evaluation hashes each message of less than 2^61 octets as FIPS 180-4 says:
    it gives eight words of 32 bits, and their digest is that of the standard. -/
theorem hash_eq_standard (message : List UInt8) (h : message.length < 2 ^ 61) (j : Journal) :
    ∃ words j', (hash (Direct.backend Direct.table) message).exec j = (.ok words, j') ∧
      words.length = 8 ∧ (∀ d ∈ words, ∃ n : Nat, d = .int n ∧ n < 2 ^ 32) ∧
      chain words = .ok (.chain words) ∧
      digest words = .ok (Standard.digest (octetBits message) (length_octetBits_lt h)) ∧
      (Standard.digest (octetBits message) (length_octetBits_lt h)).length = 32 := by
  obtain ⟨words, j', hexec, -, hwords⟩ :=
    yields_hash Direct.journalled_simulatesDirect j message (length_octetBits_lt h)
  have hvalues : words =
      (Standard.hash (octetBits message) (length_octetBits_lt h)).toList.map fun v => .int v.toNat := by
    rw [← List.forall₂_eq_eq_eq, List.forall₂_map_right_iff]
    exact hwords
  have hlength : words.length = 8 := hwords.length_eq
  refine ⟨words, j', hexec, hlength, fun d hd => ?_, if_pos hlength, ?_, rfl⟩
  · rw [hvalues] at hd
    obtain ⟨v, -, rfl⟩ := List.mem_map.mp hd
    exact ⟨v.toNat, rfl, v.isLt⟩
  · rw [hvalues]
    exact digest_words _

/-- Fifty-six octets, after which the end mark and the length need a second chunk. -/
def twoChunks : List UInt8 :=
  List.replicate 56 0x61

theorem hash_twoChunks_eq_standard :
    (pad twoChunks).length = 2 ∧ ∃ hlength : (octetBits twoChunks).length < 2 ^ 64,
      ∃ words j', (hash (Direct.backend Direct.table) twoChunks).exec .empty = (.ok words, j') ∧
        digest words = .ok (Standard.digest (octetBits twoChunks) hlength) := by
  have h : twoChunks.length < 2 ^ 61 := by decide
  obtain ⟨words, j', hexec, -, -, -, hdigest, -⟩ := hash_eq_standard twoChunks h .empty
  exact ⟨by decide +kernel, length_octetBits_lt h, words, j', hexec, hdigest⟩

end WordCircuit.Sha256
