import Mathlib.Algebra.Group.Nat.Defs
import WordCircuit.Direct
import WordCircuit.Proofs.Capability
import WordCircuit.Proofs.Interpretation

namespace WordCircuit.Direct

variable {ty : ValueType}

theorem number_datum (v : BitVec ty.width) : number (ty.datum v) = v.toNat := by
  rw [number, ValueType.integer?_datum, Option.getD_some]

theorem datum_of_isWord (hword : ty.isWord = true) (v : BitVec ty.width) :
    ty.datum v = .int v.toNat := by
  cases ty with
  | bool => cases hword
  | u8 => rfl
  | u32 => rfl

/-- A connective is the operation on bit vectors that agrees with it on single bits
    and on numbers. -/
theorem connective_datum {onBools : Bool → Bool → Bool} {onIntegers : Int → Int → Int}
    {u v r : BitVec ty.width} (hbools : r.getLsbD 0 = onBools (u.getLsbD 0) (v.getLsbD 0))
    (hintegers : onIntegers u.toNat v.toNat = r.toNat) :
    connective onBools onIntegers (ty.datum u) (ty.datum v) = ty.datum r := by
  cases ty with
  | bool => exact congrArg Datum.bool hbools.symm
  | u8 => exact congrArg Datum.int hintegers
  | u32 => exact congrArg Datum.int hintegers

theorem conjunction_datum (u v : BitVec ty.width) :
    conjunction (ty.datum u) (ty.datum v) = ty.datum (u &&& v) :=
  connective_datum BitVec.getLsbD_and (by rw [BitVec.toNat_and]; rfl)

theorem disjunction_datum (u v : BitVec ty.width) :
    disjunction (ty.datum u) (ty.datum v) = ty.datum (u ||| v) :=
  connective_datum BitVec.getLsbD_or (by rw [BitVec.toNat_or]; rfl)

theorem exclusion_datum (u v : BitVec ty.width) :
    exclusion (ty.datum u) (ty.datum v) = ty.datum (u ^^^ v) :=
  connective_datum BitVec.getLsbD_xor (by rw [BitVec.toNat_xor]; rfl)

/-- The lowest bits of a number that is not negative are its remainder. -/
theorem low_natCast (width n : Nat) : Integer.low width n = (n % 2 ^ width : Nat) := by
  rw [Integer.low, Nat.one_shiftLeft]
  exact (Int.natCast_emod n (2 ^ width)).symm

theorem low_complement {width : Nat} (v : BitVec width) :
    Integer.low width (-v.toNat - 1) = (~~~v).toNat := by
  have hlt := v.isLt
  rw [Integer.low, Nat.one_shiftLeft, BitVec.toNat_not]
  have hsplit : (-v.toNat - 1 : Int) = (2 ^ width - 1 - v.toNat : Nat) + (2 ^ width : Nat) * (-1) := by
    omega
  rw [hsplit, Int.add_mul_emod_self_left]
  exact Int.emod_eq_of_lt (by omega) (by omega)

theorem negation_datum (v : BitVec ty.width) : negation ty (ty.datum v) = ty.datum (~~~v) := by
  cases ty with
  | bool =>
    apply congrArg Datum.bool
    rw [BitVec.getLsbD_not]
    rfl
  | u8 => exact congrArg Datum.int (low_complement v)
  | u32 => exact congrArg Datum.int (low_complement v)

theorem shiftLeft_natCast (n k : Nat) : Integer.shiftLeft n k = (n <<< k : Nat) := by
  rw [Integer.shiftLeft, Nat.one_shiftLeft, Nat.shiftLeft_eq]
  exact (Int.natCast_mul n (2 ^ k)).symm

theorem shiftRight_natCast (n k : Nat) : Integer.shiftRight n k = (n >>> k : Nat) :=
  rfl

/-- What a movement does to the number of a word. -/
def moved (ty : ValueType) (op : ShiftOp) (n : Int) (k : Nat) : Int :=
  match op with
  | .shl => Integer.low ty.width (Integer.shiftLeft n k)
  | .shr => Integer.shiftRight n k
  | .rotl => rotateLeft ty n k
  | .rotr => rotateRight ty n k

/-- Movements of numbers are those of bit vectors, for each amount that is
    accepted. -/
theorem moved_eq (op : ShiftOp) (v : BitVec ty.width) {k : Nat}
    (hk : k ≤ if op.isRotation then ty.width - 1 else ty.width) :
    moved ty op v.toNat k = (op.move v k).toNat := by
  have hpos := ty.width_pos
  cases op with
  | shl =>
    rw [moved, shiftLeft_natCast, low_natCast, ShiftOp.move, BitVec.toNat_shiftLeft]
  | shr =>
    rw [moved, shiftRight_natCast, ShiftOp.move, BitVec.toNat_ushiftRight]
  | rotl =>
    have hlt : k < ty.width := by
      have : k ≤ ty.width - 1 := hk
      omega
    have hright : v.toNat >>> (ty.width - k) < 2 ^ ty.width :=
      Nat.lt_of_le_of_lt (Nat.shiftRight_le _ _) v.isLt
    rw [moved, rotateLeft, shiftLeft_natCast, shiftRight_natCast, ShiftOp.move,
      BitVec.toNat_rotateLeft, Nat.mod_eq_of_lt hlt]
    change Integer.low ty.width ((v.toNat <<< k ||| v.toNat >>> (ty.width - k) : Nat) : Int) = _
    rw [low_natCast, Nat.or_mod_two_pow, Nat.mod_eq_of_lt hright]
  | rotr =>
    have hlt : k < ty.width := by
      have : k ≤ ty.width - 1 := hk
      omega
    have hright : v.toNat >>> k < 2 ^ ty.width :=
      Nat.lt_of_le_of_lt (Nat.shiftRight_le _ _) v.isLt
    rw [moved, rotateRight, shiftLeft_natCast, shiftRight_natCast, ShiftOp.move,
      BitVec.toNat_rotateRight, Nat.mod_eq_of_lt hlt]
    change Integer.low ty.width ((v.toNat >>> k ||| v.toNat <<< (ty.width - k) : Nat) : Int) = _
    rw [low_natCast, Nat.or_mod_two_pow, Nat.mod_eq_of_lt hright]

/-- Handles of direct evaluation stand for the bit vectors whose canonical form they
    are, and no operation changes the journal. -/
abbrev values : Interpretation Journal fun _ => Datum where
  World := Journal
  state j := j
  Grows j j' := j' = j
  grows_refl _ := rfl
  grows_trans h h' := h'.trans h
  Reads _ ty d v := d = ty.datum v
  reads_of_grows _ h := h

theorem require_connective (ty : ValueType) {wanted : Capability}
    (hwanted : wanted ∈ [.and, .or, .xor, .not]) (operation : String) :
    table.require name ty wanted operation = .ok () := by
  simp only [List.mem_cons, List.not_mem_nil, or_false] at hwanted
  obtain ⟨offered, hoffered, hincludes⟩ : ∃ offered, table.offered? ty = some offered ∧
      offered.closure.includes wanted = true := by
    cases ty <;> refine ⟨_, rfl, ?_⟩ <;> rcases hwanted with rfl | rfl | rfl | rfl <;> decide
  exact Table.require_of_offered hoffered hincludes _ _

/-- Words alone can be moved and added. -/
theorem require_word (hword : ty.isWord = true) {wanted : Capability}
    (hwanted : wanted ∈ [.shift, .rotate, .wrappingAdd]) (operation : String) :
    table.require name ty wanted operation = .ok () := by
  simp only [List.mem_cons, List.not_mem_nil, or_false] at hwanted
  obtain ⟨offered, hoffered, hincludes⟩ : ∃ offered, table.offered? ty = some offered ∧
      offered.closure.includes wanted = true := by
    cases ty with
    | bool => cases hword
    | u8 => exact ⟨_, rfl, by rcases hwanted with rfl | rfl | rfl <;> decide⟩
    | u32 => exact ⟨_, rfl, by rcases hwanted with rfl | rfl | rfl <;> decide⟩
  exact Table.require_of_offered hoffered hincludes _ _

theorem exists_require_bool_error {wanted : Capability}
    (hwanted : wanted ∈ [.shift, .rotate, .wrappingAdd]) (operation : String) :
    ∃ fault, table.require name .bool wanted operation = .error fault ∧ fault.kind = .type := by
  simp only [List.mem_cons, List.not_mem_nil, or_false] at hwanted
  refine Table.exists_require_error ?_ _ _
  rcases hwanted with rfl | rfl | rfl <;> decide

theorem add_datum (hword : ty.isWord = true) (u v : BitVec ty.width) :
    (ty.datum u).add (ty.datum v) = .ok (.int ((u.toNat : Int) + v.toNat)) := by
  rw [datum_of_isWord hword, datum_of_isWord hword]
  rfl

theorem follows_binary (op : BinaryOp) {j : Journal} (u v : BitVec ty.width) :
    values.Follows j (op.run (backend table) ty (ty.datum u) (ty.datum v)) (values.Reads · ty)
      (op.value ty u v) := by
  cases op with
  | and =>
    exact .check (require_connective ty (by simp) _) (.of_yields (.pure (conjunction_datum u v)))
  | or =>
    exact .check (require_connective ty (by simp) _) (.of_yields (.pure (disjunction_datum u v)))
  | xor =>
    exact .check (require_connective ty (by simp) _) (.of_yields (.pure (exclusion_datum u v)))
  | wrappingAdd =>
    by_cases hword : ty.isWord = true
    · rw [BinaryOp.value, if_pos hword]
      refine Frame.Yields.check (require_word hword (by simp) _) ?_
      refine .check (add_datum hword u v) (.pure ?_)
      change Datum.int (Integer.low ty.width (u.toNat + v.toNat)) = ty.datum (u + v)
      rw [datum_of_isWord hword, BitVec.toNat_add, ← low_natCast]
      rfl
    · rw [BinaryOp.value, if_neg hword]
      cases ty with
      | bool =>
        have hwanted : Capability.wrappingAdd ∈ [Capability.shift, .rotate, .wrappingAdd] := by simp
        obtain ⟨fault, hfault, hkind⟩ := exists_require_bool_error hwanted "wrapping_add"
        exact hkind ▸ Frame.Follows.of_error hfault _
      | u8 => exact absurd rfl hword
      | u32 => exact absurd rfl hword

/-- A movement is gated, checks its amount, and then computes on the number. -/
theorem run_shift_eq (op : ShiftOp) (d amount : Datum) :
    ∃ wanted operation, wanted ∈ [Capability.shift, .rotate, .wrappingAdd] ∧
      op.run (backend table) ty d amount = (do
        table.require name ty wanted operation
        let k ← ty.shiftAmount amount op.isRotation
        return .int (moved ty op (number d) k)) := by
  cases op with
  | shl => exact ⟨.shift, "shl", by simp, rfl⟩
  | shr => exact ⟨.shift, "shr", by simp, rfl⟩
  | rotl => exact ⟨.rotate, "rotl", by simp, rfl⟩
  | rotr => exact ⟨.rotate, "rotr", by simp, rfl⟩

theorem follows_shift (op : ShiftOp) {j : Journal} (u : BitVec ty.width) (amount : Datum) :
    values.Follows j (op.run (backend table) ty (ty.datum u) amount) (values.Reads · ty)
      (op.value ty u amount) := by
  obtain ⟨wanted, operation, hwanted, hrun⟩ := @run_shift_eq ty op (ty.datum u) amount
  rw [hrun]
  by_cases hword : ty.isWord = true
  · rw [ShiftOp.value, if_pos hword]
    have hrequire := require_word hword hwanted operation
    refine .check hrequire ?_
    cases hamount : ty.shiftAmount amount op.isRotation with
    | ok k =>
      refine .of_yields (.pure ?_)
      change Datum.int (moved ty op (number (ty.datum u)) k) = ty.datum (op.move u k)
      rw [number_datum, moved_eq op u (ValueType.shiftAmount_le hamount), datum_of_isWord hword]
    | error fault => exact .of_error rfl _
  · rw [ShiftOp.value, if_neg hword]
    cases ty with
    | bool =>
      obtain ⟨fault, hfault, hkind⟩ := exists_require_bool_error hwanted operation
      exact hkind ▸ Frame.Follows.of_error hfault _
    | u8 => exact absurd rfl hword
    | u32 => exact absurd rfl hword

/-- Direct evaluation computes on the values of each type as on bit vectors of its
    width. -/
theorem values_models (ty : ValueType) : values.Models (backend table) ty where
  constant j d := by
    obtain ⟨v, hvalidate, hvalue⟩ | ⟨fault, hvalidate, hvalue⟩ := ty.value_cases d
    · rw [hvalue]
      exact ⟨ty.datum v, j, by rw [← hvalidate]; rfl, rfl, rfl⟩
    · rw [hvalue]
      exact ⟨fault, j, by rw [← hvalidate]; rfl, rfl⟩
  binary op _ _ _ u v hx hy := by
    rw [hx, hy]
    exact follows_binary op u v
  not {j _ u} hx := by
    rw [hx]
    exact .check (require_connective ty (by simp) _) (.pure (negation_datum u))
  shift op _ _ u amount hx := by
    rw [hx]
    exact follows_shift op u amount

end WordCircuit.Direct
