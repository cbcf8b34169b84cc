import Mathlib.Algebra.BigOperators.Fin
import WordCircuit.Proofs.Program.Sliced
import WordCircuit.Proofs.Scalar

namespace WordCircuit

namespace Scalar

/-- The number is zero or one. -/
def IsBit (s : Scalar) : Prop :=
  s.value = 0 ∨ s.value = 1

instance : DecidablePred IsBit :=
  fun s => inferInstanceAs (Decidable (s.value = 0 ∨ s.value = 1))

/-- The truth value of a bit. -/
def bit (s : Scalar) : Bool :=
  s.value == 1

theorem IsBit.toNat_bit {s : Scalar} (hs : s.IsBit) : (s.bit.toNat : Int) = s.value := by
  obtain hs | hs := hs <;> rw [bit, hs] <;> rfl

theorem IsBit.bit_inj {s t : Scalar} (hs : s.IsBit) (ht : t.IsBit) :
    s.bit = t.bit ↔ s.value = t.value := by
  obtain hs | hs := hs <;> obtain ht | ht := ht <;> simp [bit, hs, ht]

end Scalar

namespace Bits

open Scalar

variable {entries others : List Scalar}

/-- An element of a field counts by its canonical form, so that every number counts by its
    value. -/
theorem value_datum (position : Nat) (s : Scalar) :
    value position s.datum =
      if s.value = 0 then .ok 0
      else if s.value = 1 then .ok 1
      else .error (.notABit position (toString s.value)) := by
  have hinteger (n : Int) : value position (.int n) =
      if n = 0 then .ok 0 else if n = 1 then .ok 1 else .error (.notABit position (toString n)) := by
    change (if (n == 0) = true then _ else if (n == 1) = true then _ else _) = _
    simp only [beq_iff_eq]
    rfl
  cases s with
  | truth b => cases b <;> rfl
  | integer n => exact hinteger n
  | residue r => exact hinteger r.value

theorem value_of_isBit {s : Scalar} (hs : s.IsBit) (position : Nat) :
    value position s.datum = .ok s.bit.toNat := by
  rw [value_datum]
  obtain hs | hs := hs <;> simp [bit, hs]

theorem value_of_not_isBit {s : Scalar} (hs : ¬ s.IsBit) (position : Nat) :
    value position s.datum = .error (.notABit position (toString s.value)) := by
  obtain ⟨hzero, hone⟩ := not_or.mp hs
  rw [value_datum, if_neg hzero, if_neg hone]

/-- The first number that is no bit is refused with its position. -/
theorem decodeFrom_eq_error {front rest : List Scalar} {s : Scalar} (hfront : ∀ t ∈ front, t.IsBit)
    (hs : ¬ s.IsBit) (position : Nat) :
    decodeFrom position ((front ++ s :: rest).map datum) =
      .error (.notABit (position + front.length) (toString s.value)) := by
  induction front generalizing position with
  | nil =>
    rw [List.nil_append, List.map_cons, decodeFrom, value_of_not_isBit hs]
    rfl
  | cons t front ih =>
    rw [List.forall_mem_cons] at hfront
    rw [List.cons_append, List.map_cons, decodeFrom, value_of_isBit hfront.1, ih hfront.2]
    rw [List.length_cons, Nat.add_right_comm, Nat.add_assoc]
    rfl

/-- Numbers are bits, or one of them is the first that is none. -/
theorem forall_isBit_or (entries : List Scalar) :
    (∀ s ∈ entries, s.IsBit) ∨ ∃ front s rest, entries = front ++ s :: rest ∧
      (∀ t ∈ front, t.IsBit) ∧ ¬ s.IsBit := by
  cases hfind : entries.find? fun s => !decide s.IsBit with
  | none => exact .inl (by simpa using hfind)
  | some s =>
    obtain ⟨hs, front, rest, heq, hfront⟩ := List.find?_eq_some_iff_append.mp hfind
    exact .inr ⟨front, s, rest, heq, by simpa using hfront, by simpa using hs⟩

/-- The word of the numbers that are one, lowest first. -/
def wordOf (entries : List Scalar) : BitVec entries.length :=
  word fun i => entries[i].bit

theorem getLsbD_wordOf {i : Nat} (hi : i < entries.length) :
    (wordOf entries).getLsbD i = entries[i].bit :=
  getLsbD_word _ hi

theorem decode_of_forall_isBit (hentries : ∀ s ∈ entries, s.IsBit) :
    decode (entries.map datum) = .ok (wordOf entries).toNat := by
  refine decode_eq_toNat (List.length_map _) fun i hi position => ?_
  rw [List.length_map] at hi
  rw [List.getElem_map, value_of_isBit (hentries _ (List.getElem_mem hi)), getLsbD_wordOf hi]

theorem ofBits_eq_sum {width : Nat} (bit : Fin width → Bool) :
    Nat.ofBits bit = ∑ i, (bit i).toNat * 2 ^ (i : Nat) := by
  induction width with
  | zero => rfl
  | succ width ih =>
    rw [Nat.ofBits_succ, ih, Fin.sum_univ_succ, Finset.mul_sum, Nat.add_comm, Fin.val_zero, pow_zero,
      mul_one]
    refine congrArg _ (Finset.sum_congr rfl fun i _ => ?_)
    rw [Function.comp_apply, Fin.val_succ, pow_succ, Nat.mul_left_comm, Nat.mul_comm 2]

/-- The number of bits is the sum of their values with the powers of two as weights. -/
theorem toNat_wordOf (hentries : ∀ s ∈ entries, s.IsBit) :
    ((wordOf entries).toNat : Int) = ∑ i : Fin entries.length, entries[i].value * 2 ^ (i : Nat) := by
  rw [wordOf, word, BitVec.toNat_ofNatLT, ofBits_eq_sum, Nat.cast_sum]
  refine Finset.sum_congr rfl fun i _ => ?_
  have hbit : (entries[i].bit.toNat : Int) = entries[i].value :=
    (hentries _ (List.getElem_mem i.isLt)).toNat_bit
  rw [Nat.cast_mul, Nat.cast_pow, hbit]
  rfl

theorem toNat_wordOf_cons (s : Scalar) (rest : List Scalar) :
    (wordOf (s :: rest)).toNat = s.bit.toNat ||| (wordOf rest).toNat <<< 1 := by
  have hsucc : (wordOf (s :: rest)).toNat = 2 * (wordOf rest).toNat + s.bit.toNat := Nat.ofBits_succ _
  have hlt : s.bit.toNat < 2 ^ 1 := s.bit.toNat_lt
  rw [hsucc, Nat.or_comm, ← Nat.shiftLeft_add_eq_or_of_lt hlt, Nat.shiftLeft_eq, pow_one, Nat.mul_comm]

/-- Bits that are shifted into place one after the other never meet, so that joining them in a
    running total gives their number. -/
theorem foldl_or_shiftLeft (entries : List Scalar) (total position : Nat) :
    (entries.zipIdx position).foldl (fun total entry => total ||| entry.1.bit.toNat <<< entry.2) total =
      total ||| (wordOf entries).toNat <<< position := by
  induction entries generalizing total position with
  | nil => simp [wordOf, word]
  | cons s rest ih =>
    rw [List.zipIdx_cons, List.foldl_cons, ih, toNat_wordOf_cons, Nat.shiftLeft_or_distrib, Nat.or_assoc,
      ← Nat.shiftLeft_add, Nat.add_comm 1]

/-- So many bits have numbers of their own. -/
theorem value_eq_of_toNat_eq (hlength : entries.length = others.length)
    (hentries : ∀ s ∈ entries, s.IsBit) (hothers : ∀ s ∈ others, s.IsBit)
    (h : (wordOf entries).toNat = (wordOf others).toNat) :
    entries.map Scalar.value = others.map Scalar.value := by
  refine List.ext_getElem (by simp [hlength]) fun i hi hi' => ?_
  rw [List.length_map] at hi hi'
  have hbit := congrArg (Nat.testBit · i) h
  rw [BitVec.testBit_toNat, BitVec.testBit_toNat, getLsbD_wordOf hi, getLsbD_wordOf hi'] at hbit
  rw [List.getElem_map, List.getElem_map]
  exact ((hentries _ (List.getElem_mem hi)).bit_inj (hothers _ (List.getElem_mem hi'))).mp hbit

end Bits

/-- A number up to the mask is a constant of the type. -/
theorem ValueType.value_natCast {ty : ValueType} {n : Nat} (hn : n ≤ ty.mask) :
    ty.value (.int n) = .ok (.ofNat ty.width n) := by
  have hrange : 0 ≤ (n : Int) ∧ (n : Int) ≤ ty.mask := ⟨Int.natCast_nonneg n, Int.ofNat_le.mpr hn⟩
  obtain ⟨canonical, hvalidate, hinteger⟩ :
      ∃ canonical, ty.validate (.int n) = .ok canonical ∧ canonical.integer? = some (n : Int) := by
    cases ty with
    | bool =>
      obtain rfl | rfl := Nat.le_one_iff_eq_zero_or_eq_one.mp hn
      · exact ⟨.bool false, rfl, rfl⟩
      · exact ⟨.bool true, rfl, rfl⟩
    | u8 => exact ⟨.int n, if_pos hrange, rfl⟩
    | u32 => exact ⟨.int n, if_pos hrange, rfl⟩
  rw [value, hvalidate]
  change Except.ok (BitVec.ofInt ty.width (canonical.integer?.getD 0)) = _
  rw [hinteger, Option.getD_some, BitVec.ofInt_natCast]

namespace BitSliced

/-- The bits of a constant over direct evaluation are those of its binary notation. -/
theorem exists_exec_constant {ty : ValueType} {n : Nat} (hn : n ≤ ty.mask) (j : Journal) :
    ∃ x, (overDirect.constant ty (.int n)).exec j = (.ok x, j) ∧
      bits ty x = (List.range ty.width).map fun i => .bool (n.testBit i) := by
  have hfollows := (sliced_models (Direct.values_models .bool).respects ty).constant j (.int n)
  rw [ValueType.value_natCast hn] at hfollows
  obtain ⟨x, _, hexec, rfl, hx⟩ := hfollows
  refine ⟨x, hexec, List.ext_getElem ?_ fun i hi hi' => ?_⟩
  · rw [hx.length_eq, List.length_map, List.length_range]
  · rw [List.length_map, List.length_range] at hi'
    have hbit : (bits ty x)[i] = .bool ((BitVec.ofNat ty.width n).getLsbD i) :=
      (hx.reads i hi).trans (ValueType.datum_ofBool _)
    rw [hbit, List.getElem_map, List.getElem_range, BitVec.getLsbD_ofNat, decide_eq_true hi', Bool.true_and]

/-- The binary notation of a number decodes to it. -/
theorem decode_range_testBit {ty : ValueType} {n : Nat} (hn : n ≤ ty.mask) :
    Bits.decode ((List.range ty.width).map fun i => .bool (n.testBit i)) = .ok n := by
  have hlt : n < 2 ^ ty.width := by
    rw [ValueType.mask, Nat.one_shiftLeft] at hn
    have hpos := Nat.two_pow_pos ty.width
    omega
  have hnumber : (BitVec.ofNat ty.width n).toNat = n := by
    rw [BitVec.toNat_ofNat, Nat.mod_eq_of_lt hlt]
  refine (Bits.decode_eq_toNat (by simp) fun i hi position => ?_).trans (congrArg Except.ok hnumber)
  rw [List.length_map, List.length_range] at hi
  rw [List.getElem_map, List.getElem_range, Bits.value_bool, BitVec.getLsbD_ofNat, decide_eq_true hi,
    Bool.true_and]

end BitSliced

namespace Bits

open Scalar BitSliced

/-- Truth values, integers and residues, mixed in any way, decode exactly if all of them are zero or
    one; otherwise the first that is neither is named. What they decode to is the sum of their
    weights, which is also the bits joined in place; it is less than two to the power of their count,
    and as many other bits decode to something else. Sliced constants decode to what they are
    constants of, and from the number of as many bits as a type has slicing makes their truth
    values. -/
theorem decode_inverts_slicing :
    (∀ entries : List Scalar,
      ((∃ fault, decode (entries.map datum) = .error fault ∧ fault.kind = .value) ↔
        ∃ s ∈ entries, ¬ s.IsBit) ∧
      (∀ front s rest, entries = front ++ s :: rest → (∀ t ∈ front, t.IsBit) → ¬ s.IsBit →
        decode (entries.map datum) = .error (.notABit front.length (toString s.value))) ∧
      ((∀ s ∈ entries, s.IsBit) → ∃ n : Nat, decode (entries.map datum) = .ok n ∧
        (n : Int) = ∑ i : Fin entries.length, entries[i].value * 2 ^ (i : Nat) ∧
        n = entries.zipIdx.foldl (fun total entry => total ||| entry.1.bit.toNat <<< entry.2) 0 ∧
        n < 2 ^ entries.length)) ∧
    (∀ entries others : List Scalar, entries.length = others.length →
      (∀ s ∈ entries, s.IsBit) → (∀ s ∈ others, s.IsBit) →
      decode (entries.map datum) = decode (others.map datum) →
        entries.map Scalar.value = others.map Scalar.value) ∧
    (∀ (ty : ValueType) (n : Nat) (j : Journal), n ≤ ty.mask →
      ∃ x, (overDirect.constant ty (.int n)).exec j = (.ok x, j) ∧ decode (bits ty x) = .ok n) ∧
    ∀ (ty : ValueType) (entries : List Scalar) (j : Journal), entries.length = ty.width →
      (∀ s ∈ entries, s.IsBit) →
      ∃ (n : Nat) (x : Handle Datum ty), decode (entries.map datum) = .ok n ∧
        (overDirect.constant ty (.int n)).exec j = (.ok x, j) ∧
        bits ty x = entries.map fun s => .bool s.bit := by
  refine ⟨fun entries => ⟨⟨?refused, ?refuses⟩, ?position, fun hentries => ?sum⟩, ?distinct,
    ?constant, ?decoded⟩
  case refused =>
    rintro ⟨fault, hfault, -⟩
    by_contra hnone
    push Not at hnone
    rw [decode_of_forall_isBit hnone] at hfault
    cases hfault
  case refuses =>
    rintro ⟨s, hmem, hs⟩
    obtain hentries | ⟨front, t, rest, rfl, hfront, ht⟩ := forall_isBit_or entries
    · exact absurd (hentries s hmem) hs
    · exact ⟨_, decodeFrom_eq_error hfront ht 0, rfl⟩
  case position =>
    rintro front s rest rfl hfront hs
    refine (decodeFrom_eq_error hfront hs 0).trans ?_
    rw [Nat.zero_add]
  case sum =>
    refine ⟨_, decode_of_forall_isBit hentries, toNat_wordOf hentries, ?_, (wordOf entries).isLt⟩
    rw [foldl_or_shiftLeft, Nat.zero_or, Nat.shiftLeft_zero]
  case distinct =>
    intro entries others hlength hentries hothers h
    rw [decode_of_forall_isBit hentries, decode_of_forall_isBit hothers] at h
    exact value_eq_of_toNat_eq hlength hentries hothers (Except.ok.inj h)
  case constant =>
    intro ty n j hn
    obtain ⟨x, hexec, hx⟩ := exists_exec_constant hn j
    exact ⟨x, hexec, hx ▸ decode_range_testBit hn⟩
  case decoded =>
    intro ty entries j hlength hentries
    have hlt := (wordOf entries).isLt
    have hmask : (wordOf entries).toNat ≤ ty.mask := by
      rw [ValueType.mask, Nat.one_shiftLeft, ← hlength]
      omega
    obtain ⟨x, hexec, hx⟩ := exists_exec_constant hmask j
    refine ⟨_, x, decode_of_forall_isBit hentries, hexec, hx.trans ?_⟩
    refine List.ext_getElem (by simp [hlength]) fun i hi hi' => ?_
    rw [List.length_map] at hi'
    rw [List.getElem_map, List.getElem_map, List.getElem_range, BitVec.testBit_toNat, getLsbD_wordOf hi']

/-- A truth value, an integer and a residue decode to five. With three in the place of the integer
    the second position is refused. -/
theorem mixed_bits_decode :
    decode ([truth true, integer 0, residue ⟨.seven, 1, by decide⟩].map datum) = .ok 5 ∧
      decode ([truth true, threeBySeven, residue ⟨.seven, 1, by decide⟩].map datum) =
        .error (.notABit 1 "3") := by
  constructor
  · obtain ⟨n, hdecode, hsum, -⟩ :=
      (decode_inverts_slicing.1 [truth true, integer 0, residue ⟨.seven, 1, by decide⟩]).2.2 (by decide)
    obtain rfl : n = 5 := Int.ofNat.inj (hsum.trans (by decide))
    exact hdecode
  · exact (decode_inverts_slicing.1 [truth true, threeBySeven, residue ⟨.seven, 1, by decide⟩]).2.1
      [truth true] threeBySeven _ rfl (by decide) (by decide)

end Bits

end WordCircuit
