import WordCircuit.BitSliced
import WordCircuit.Proofs.Interpretation

namespace WordCircuit

/-- Handles of truth values spell a word, from its lowest bit on. -/
abbrev Reading.SpellsWord {σ β : Type} (R : Reading σ β Bool) (w : R.World) (bits : List β)
    {width : Nat} (v : BitVec width) : Prop :=
  R.Spells w bits width v.getLsbD

namespace BitSliced

variable {σ : Type} {Inner : ValueType → Type} {inner : Backend σ Inner}
  {R : Reading σ (Inner .bool) Bool} {ty : ValueType}

theorem checkWidth_of_length_eq {β : Type} {bits : List β} (h : bits.length = ty.width) :
    checkWidth ty bits = .ok () :=
  if_pos h

theorem checkWidth_of_spells {β : Type} {R : Reading σ β Bool} {w : R.World} {bits : List β}
    {value : Nat → Bool} (h : R.Spells w bits ty.width value) : checkWidth ty bits = .ok () :=
  checkWidth_of_length_eq h.length_eq

theorem bitOf_natCast (n i : Nat) : bitOf n i = n.testBit i := by
  have hshift : Integer.shiftRight n i = (n >>> i : Nat) := rfl
  rw [bitOf, hshift, Nat.testBit_eq_decide_div_mod_eq, Nat.shiftRight_eq_div_pow, Bool.eq_iff_iff,
    beq_iff_eq, decide_eq_true_iff]
  omega

theorem yields_constantBits (hR : R.Respects inner) {w : R.World} {d : Datum} {v : BitVec ty.width}
    (hvalidate : ty.validate d = .ok (ty.datum v)) :
    R.Yields w (constantBits inner ty d) (R.SpellsWord · · v) := by
  refine .check hvalidate ?_
  apply R.yields_mapM List.length_range
  intro i hi w' _
  rw [List.getElem_range, ValueType.integer?_datum, Option.getD_some, bitOf_natCast]
  exact hR.constant w' (v.toNat.testBit i)

/-- An operation on single bits, applied position by position, gives the word whose
    bits it gives. -/
theorem yields_bitwise {op : Inner .bool → Inner .bool → Action σ (Inner .bool)}
    {f : Bool → Bool → Bool}
    (hop : ∀ {w : R.World} {x y : Inner .bool} {u v : Bool}, R.Reads w x u → R.Reads w y v →
      R.Yields w (op x y) (R.Reads · · (f u v)))
    {w : R.World} {a b : List (Inner .bool)} {u v r : BitVec ty.width} (ha : R.SpellsWord w a u)
    (hb : R.SpellsWord w b v) (hr : ∀ i < ty.width, r.getLsbD i = f (u.getLsbD i) (v.getLsbD i)) :
    R.Yields w (bitwise op ty a b) (R.SpellsWord · · r) := by
  refine .check (checkWidth_of_spells ha) (.check (checkWidth_of_spells hb) ?_)
  have hlength : (a.zip b).length = ty.width := by
    rw [List.length_zip, ha.length_eq, hb.length_eq, Nat.min_self]
  apply R.yields_mapM hlength
  intro i hi w' hgrows
  rw [List.getElem_zip, hr i (by omega)]
  have hx := ha.reads i (by have := ha.length_eq; omega)
  have hy := hb.reads i (by have := hb.length_eq; omega)
  exact hop (R.reads_of_grows hgrows hx) (R.reads_of_grows hgrows hy)

theorem yields_complement (hR : R.Respects inner) {w : R.World} {a : List (Inner .bool)}
    {u : BitVec ty.width} (ha : R.SpellsWord w a u) :
    R.Yields w (complement (inner.not .bool) ty a) (R.SpellsWord · · (~~~u)) := by
  refine .check (checkWidth_of_spells ha) ?_
  have hlength := ha.length_eq
  apply R.yields_mapM hlength
  intro i hi w' hgrows
  rw [BitVec.getLsbD_not, decide_eq_true (hlength ▸ hi), Bool.true_and]
  exact hR.not (R.reads_of_grows hgrows (ha.reads i hi))

section Movement

variable {w : R.World} {a : List (Inner .bool)} {u : BitVec ty.width} {amount : Datum} {k : Nat}

theorem yields_shiftUp (hR : R.Respects inner) (ha : R.SpellsWord w a u)
    (hamount : ty.shiftAmount amount false = .ok k) :
    R.Yields w (shiftUp inner ty amount a) (R.SpellsWord · · (u <<< k)) := by
  have hk : k ≤ ty.width := ValueType.shiftAmount_le hamount
  refine .check hamount (.check (checkWidth_of_spells ha) ?_)
  refine (hR.constant w false).bind fun w' zero hgrows hzero => .pure ?_
  have hout := (R.spells_replicate hzero k).append ((ha.of_grows hgrows).take (Nat.sub_le ty.width k))
  rw [Nat.add_sub_cancel' hk] at hout
  apply hout.congr
  intro i hi
  rw [BitVec.getLsbD_shiftLeft, decide_eq_true hi]
  by_cases hlt : i < k <;> simp [hlt]

theorem yields_shiftDown (hR : R.Respects inner) (ha : R.SpellsWord w a u)
    (hamount : ty.shiftAmount amount false = .ok k) :
    R.Yields w (shiftDown inner ty amount a) (R.SpellsWord · · (u >>> k)) := by
  have hk : k ≤ ty.width := ValueType.shiftAmount_le hamount
  refine .check hamount (.check (checkWidth_of_spells ha) ?_)
  refine (hR.constant w false).bind fun w' zero hgrows hzero => .pure ?_
  have hout := ((ha.of_grows hgrows).drop k).append (R.spells_replicate hzero k)
  rw [Nat.sub_add_cancel hk] at hout
  apply hout.congr
  intro i hi
  rw [BitVec.getLsbD_ushiftRight]
  by_cases hlt : i < ty.width - k
  · rw [if_pos hlt]
  · rw [if_neg hlt, BitVec.getLsbD_of_ge u _ (by omega)]

theorem yields_rotateUp (ha : R.SpellsWord w a u) (hamount : ty.shiftAmount amount true = .ok k) :
    R.Yields w (rotateUp ty amount a) (R.SpellsWord · · (u.rotateLeft k)) := by
  have hle : k ≤ ty.width - 1 := ValueType.shiftAmount_le hamount
  have hpos := ty.width_pos
  refine .check hamount (.check (checkWidth_of_spells ha) (.pure ?_))
  have hout := (ha.drop (ty.width - k)).append (ha.take (Nat.sub_le ty.width k))
  rw [Nat.sub_add_cancel (Nat.sub_le ty.width k)] at hout
  apply hout.congr
  intro i hi
  have hcount : ty.width - (ty.width - k) = k := by omega
  rw [BitVec.getLsbD_rotateLeft_of_le (by omega), hcount, decide_eq_true hi, Bool.true_and]
  by_cases hlt : i < k <;> simp [hlt]

theorem yields_rotateDown (ha : R.SpellsWord w a u) (hamount : ty.shiftAmount amount true = .ok k) :
    R.Yields w (rotateDown ty amount a) (R.SpellsWord · · (u.rotateRight k)) := by
  have hle : k ≤ ty.width - 1 := ValueType.shiftAmount_le hamount
  have hpos := ty.width_pos
  refine .check hamount (.check (checkWidth_of_spells ha) (.pure ?_))
  have hout := (ha.drop k).append (ha.take (k := k) (by omega))
  rw [Nat.sub_add_cancel (by omega)] at hout
  apply hout.congr
  intro i hi
  rw [BitVec.getLsbD_rotateRight_of_lt (by omega), decide_eq_true hi, Bool.true_and]
  by_cases hlt : i < ty.width - k <;> simp [hlt]

end Movement

/-- The adder from position `start` on: with the carry into that position it gives
    the bits of the sum. -/
theorem yields_ripple (hR : R.Respects inner) {width : Nat} (u v : BitVec width) {count : Nat} :
    ∀ {start : Nat} {w : R.World} {xs ys : List (Inner .bool)} {carry : Inner .bool},
      R.Spells w xs count (fun i => u.getLsbD (start + i)) →
      R.Spells w ys count (fun i => v.getLsbD (start + i)) →
      R.Reads w carry (BitVec.carry start u v false) → start + count ≤ width →
      R.Yields w (ripple inner carry (xs.zip ys))
        (R.Spells · · count fun i => (u + v).getLsbD (start + i)) := by
  induction count with
  | zero =>
    intro start w xs ys carry hxs _ _ _
    rw [List.eq_nil_of_length_eq_zero hxs.length_eq]
    exact .pure R.spells_nil
  | succ count ih =>
    intro start w xs ys carry hxs hys hcarry hle
    obtain ⟨x, xs, rfl⟩ := List.exists_cons_of_length_eq_add_one hxs.length_eq
    obtain ⟨y, ys, rfl⟩ := List.exists_cons_of_length_eq_add_one hys.length_eq
    obtain ⟨hx, hxs⟩ := R.spells_cons_iff.mp hxs
    obtain ⟨hy, hys⟩ := R.spells_cons_iff.mp hys
    rw [List.zip_cons_cons, ripple]
    refine (hR.xor hx hy).bind fun w₁ p hgrows₁ hp => ?_
    have hx := R.reads_of_grows hgrows₁ hx
    have hy := R.reads_of_grows hgrows₁ hy
    have hcarry := R.reads_of_grows hgrows₁ hcarry
    refine (hR.xor hp hcarry).bind fun w₂ sum hgrows₂ hsum => ?_
    have hbit : (u + v).getLsbD (start + 0) =
        ((u.getLsbD (start + 0) ^^ v.getLsbD (start + 0)) ^^ BitVec.carry start u v false) := by
      rw [BitVec.getLsbD_add (by omega), Bool.xor_assoc, Nat.add_zero]
    rw [← hbit] at hsum
    cases count with
    | zero =>
      rw [List.eq_nil_of_length_eq_zero hxs.length_eq, List.zip_nil_left]
      exact .pure (R.spells_cons_iff.mpr ⟨hsum, R.spells_nil⟩)
    | succ count =>
      have hrest : ¬ (xs.zip ys).isEmpty = true := by
        rw [List.isEmpty_iff_length_eq_zero, List.length_zip, hxs.length_eq, hys.length_eq]
        omega
      rw [if_neg hrest]
      have hx := R.reads_of_grows hgrows₂ hx
      have hy := R.reads_of_grows hgrows₂ hy
      refine (hR.and hx hy).bind fun w₃ both hgrows₃ hboth => ?_
      have hp := R.reads_of_grows hgrows₃ (R.reads_of_grows hgrows₂ hp)
      have hcarry := R.reads_of_grows hgrows₃ (R.reads_of_grows hgrows₂ hcarry)
      refine (hR.and hcarry hp).bind fun w₄ passed hgrows₄ hpassed => ?_
      refine (hR.or (R.reads_of_grows hgrows₄ hboth) hpassed).bind fun w₅ next hgrows₅ hnext => ?_
      have hgrows := R.grows_trans hgrows₃ (R.grows_trans hgrows₄ hgrows₅)
      have hfrom := R.grows_trans hgrows₁ (R.grows_trans hgrows₂ hgrows)
      have hmajority : (u.getLsbD (start + 0) && v.getLsbD (start + 0) ||
          BitVec.carry start u v false && (u.getLsbD (start + 0) ^^ v.getLsbD (start + 0))) =
          BitVec.carry (start + 1) u v false := by
        rw [BitVec.carry_succ, Bool.atLeastTwo, Nat.add_zero]
        cases u.getLsbD start <;> cases v.getLsbD start <;>
          cases BitVec.carry start u v false <;> rfl
      rw [hmajority] at hnext
      have htail (z : BitVec width) (i : Nat) : z.getLsbD (start + (i + 1)) = z.getLsbD (start + 1 + i) :=
        congrArg z.getLsbD (by omega)
      refine (ih ((hxs.of_grows hfrom).congr fun i _ => htail u i)
        ((hys.of_grows hfrom).congr fun i _ => htail v i) hnext (by omega)).bind
        fun w₆ out hgrows₆ hout => .pure (R.spells_cons_iff.mpr ⟨?_, ?_⟩)
      · exact R.reads_of_grows (R.grows_trans hgrows hgrows₆) hsum
      · exact hout.congr fun i _ => (htail (u + v) i).symm

theorem yields_addBits (hR : R.Respects inner) {w : R.World} {a b : List (Inner .bool)}
    {u v : BitVec ty.width} (ha : R.SpellsWord w a u) (hb : R.SpellsWord w b v) :
    R.Yields w (addBits inner ty a b) (R.SpellsWord · · (u + v)) := by
  refine .check (checkWidth_of_spells ha) (.check (checkWidth_of_spells hb) ?_)
  refine (hR.constant w false).bind fun w' carry hgrows hcarry => ?_
  have hzero (z : BitVec ty.width) (i : Nat) : z.getLsbD i = z.getLsbD (0 + i) := by
    rw [Nat.zero_add]
  have hcarry : R.Reads w' carry (BitVec.carry 0 u v false) := by rwa [BitVec.carry_zero]
  refine (yields_ripple hR u v ((ha.of_grows hgrows).congr fun i _ => hzero u i)
    ((hb.of_grows hgrows).congr fun i _ => hzero v i) hcarry (by omega)).imp fun _ _ _ hout => ?_
  exact hout.congr fun i _ => (hzero (u + v) i).symm

end BitSliced

end WordCircuit
