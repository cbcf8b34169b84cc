import WordCircuit.Proofs.Action
import WordCircuit.ValueType.Constant

namespace WordCircuit

namespace ValueType

/-- The handle of direct evaluation for a value that is given by its bits. -/
def datum : (ty : ValueType) → BitVec ty.width → Datum
  | .bool, v => .bool (v.getLsbD 0)
  | .u8, v => .int v.toNat
  | .u32, v => .int v.toNat

/-- The value of a constant, or the kind of fault that refuses it. -/
def value (ty : ValueType) (constant : Datum) : Except Fault.Kind (BitVec ty.width) :=
  match ty.validate constant with
  | .ok canonical => .ok (.ofInt ty.width (canonical.integer?.getD 0))
  | .error fault => .error fault.kind

theorem width_pos (ty : ValueType) : 0 < ty.width := by
  cases ty <;> exact Nat.succ_pos _

theorem toNat_of_bool (v : BitVec ValueType.bool.width) : v.toNat = (v.getLsbD 0).toNat := by
  have hlt : v.toNat < 2 := v.isLt
  rw [BitVec.getLsbD, Nat.testBit_zero]
  by_cases hodd : v.toNat % 2 = 1
  · simp only [hodd, decide_true, Bool.toNat_true]
    omega
  · simp only [hodd, decide_false, Bool.toNat_false]
    omega

theorem integer?_datum (ty : ValueType) (v : BitVec ty.width) :
    (ty.datum v).integer? = some (v.toNat : Int) := by
  cases ty with
  | bool =>
    rw [datum, Datum.integer?, toNat_of_bool]
    cases v.getLsbD 0 <;> rfl
  | u8 => rfl
  | u32 => rfl

theorem datum_inj {ty : ValueType} {u v : BitVec ty.width} : ty.datum u = ty.datum v ↔ u = v := by
  refine ⟨fun h => BitVec.eq_of_toNat_eq ?_, fun h => h ▸ rfl⟩
  have hinteger := congrArg Datum.integer? h
  rw [integer?_datum, integer?_datum] at hinteger
  exact Int.ofNat.inj (Option.some.inj hinteger)

/-- A word is as large as the mask at most. -/
theorem toNat_le_mask {ty : ValueType} (v : BitVec ty.width) : v.toNat ≤ ty.mask := by
  have hlt := v.isLt
  rw [mask, Nat.one_shiftLeft]
  omega

/-- What the validation of a constant lets through is the handle of its value. -/
theorem eq_datum_of_validate {ty : ValueType} {constant canonical : Datum}
    (h : ty.validate constant = .ok canonical) :
    canonical = ty.datum (.ofInt ty.width (canonical.integer?.getD 0)) := by
  have hword {n : Int} (hlo : 0 ≤ n) (hhi : n ≤ ty.mask) :
      ((BitVec.ofInt ty.width n).toNat : Int) = n := by
    rw [mask, Nat.one_shiftLeft] at hhi
    have hpos := Nat.two_pow_pos ty.width
    rw [BitVec.toNat_ofInt, Int.toNat_of_nonneg (Int.emod_nonneg _ (by omega))]
    exact Int.emod_eq_of_lt hlo (by omega)
  unfold validate at h
  split at h
  · obtain rfl := Except.ok.inj h
    rename_i b
    cases b <;> rfl
  · obtain rfl := Except.ok.inj h
    rfl
  · obtain rfl := Except.ok.inj h
    rfl
  · cases h
  · rename_i n _ _ hty
    split at h
    · rename_i hrange
      obtain rfl := Except.ok.inj h
      cases ty with
      | bool => exact absurd rfl hty
      | u8 => exact congrArg Datum.int (hword hrange.1 hrange.2).symm
      | u32 => exact congrArg Datum.int (hword hrange.1 hrange.2).symm
    · cases h
  · cases h

/-- A constant has a value exactly if it passes validation, and then validation
    gives the handle of that value. -/
theorem value_cases (ty : ValueType) (constant : Datum) :
    (∃ v, ty.validate constant = .ok (ty.datum v) ∧ ty.value constant = .ok v) ∨
      ∃ fault, ty.validate constant = .error fault ∧ ty.value constant = .error fault.kind := by
  cases hvalidate : ty.validate constant with
  | ok canonical =>
    refine .inl ⟨.ofInt ty.width (canonical.integer?.getD 0), ?_, ?_⟩
    · rw [← eq_datum_of_validate hvalidate]
    · rw [value, hvalidate]
  | error fault =>
    refine .inr ⟨fault, rfl, ?_⟩
    rw [value, hvalidate]

theorem validate_datum (ty : ValueType) (v : BitVec ty.width) :
    ty.validate (ty.datum v) = .ok (ty.datum v) := by
  have hle := toNat_le_mask v
  cases ty with
  | bool => rfl
  | u8 => exact if_pos ⟨Int.natCast_nonneg _, by exact_mod_cast hle⟩
  | u32 => exact if_pos ⟨Int.natCast_nonneg _, by exact_mod_cast hle⟩

theorem value_datum (ty : ValueType) (v : BitVec ty.width) : ty.value (ty.datum v) = .ok v := by
  obtain ⟨u, hvalidate, hvalue⟩ | ⟨fault, hvalidate, -⟩ := ty.value_cases (ty.datum v)
  · rw [validate_datum] at hvalidate
    rw [hvalue, datum_inj.mp (Except.ok.inj hvalidate)]
  · rw [validate_datum] at hvalidate
    cases hvalidate

end ValueType

/-- The operations on two handles of one type. -/
inductive BinaryOp where
  | and
  | or
  | xor
  | wrappingAdd

/-- The operations that move the bits of a word by a known amount. -/
inductive ShiftOp where
  | shl
  | shr
  | rotl
  | rotr

/-- What a table offers if it offers the operation. -/
def BinaryOp.capability : BinaryOp → Capability
  | and => .and
  | or => .or
  | xor => .xor
  | wrappingAdd => .wrappingAdd

def ShiftOp.capability : ShiftOp → Capability
  | shl | shr => .shift
  | rotl | rotr => .rotate

variable {σ : Type} {Handle : ValueType → Type}

def BinaryOp.run (op : BinaryOp) (b : Backend σ Handle) (ty : ValueType) (x y : Handle ty) :
    Action σ (Handle ty) :=
  match op with
  | and => b.and ty x y
  | or => b.or ty x y
  | xor => b.xor ty x y
  | wrappingAdd => b.wrappingAdd ty x y

/-- What the operation gives on bit vectors. Only words are added. -/
def BinaryOp.value (op : BinaryOp) (ty : ValueType) (u v : BitVec ty.width) :
    Except Fault.Kind (BitVec ty.width) :=
  match op with
  | and => .ok (u &&& v)
  | or => .ok (u ||| v)
  | xor => .ok (u ^^^ v)
  | wrappingAdd => if ty.isWord then .ok (u + v) else .error .type

def ShiftOp.run (op : ShiftOp) (b : Backend σ Handle) (ty : ValueType) (x : Handle ty)
    (amount : Datum) : Action σ (Handle ty) :=
  match op with
  | shl => b.shl ty x amount
  | shr => b.shr ty x amount
  | rotl => b.rotl ty x amount
  | rotr => b.rotr ty x amount

def ShiftOp.isRotation : ShiftOp → Bool
  | shl | shr => false
  | rotl | rotr => true

def ShiftOp.move (op : ShiftOp) {width : Nat} (v : BitVec width) (k : Nat) : BitVec width :=
  match op with
  | shl => v <<< k
  | shr => v >>> k
  | rotl => v.rotateLeft k
  | rotr => v.rotateRight k

/-- What the operation gives on a bit vector. Only words are moved, and only by an
    amount that fits the width. -/
def ShiftOp.value (op : ShiftOp) (ty : ValueType) (v : BitVec ty.width) (amount : Datum) :
    Except Fault.Kind (BitVec ty.width) :=
  if ty.isWord then
    match ty.shiftAmount amount op.isRotation with
    | .ok k => .ok (op.move v k)
    | .error fault => .error fault.kind
  else
    .error .type

/-- An amount that passes the check is at most the width, and below it for a
    rotation. -/
theorem ValueType.shiftAmount_le {ty : ValueType} {amount : Datum} {rotation : Bool} {k : Nat}
    (h : ty.shiftAmount amount rotation = .ok k) :
    k ≤ if rotation then ty.width - 1 else ty.width := by
  unfold shiftAmount at h
  split at h
  · rename_i n
    by_cases hrange : 0 ≤ n ∧ n ≤ (if rotation then ty.width - 1 else ty.width : Nat)
    · obtain rfl := Except.ok.inj ((if_pos hrange).symm.trans h)
      omega
    · cases (if_neg hrange).symm.trans h
  · cases h

/-- An amount that is small enough passes the check. -/
theorem ValueType.shiftAmount_natCast {ty : ValueType} {rotation : Bool} {k : Nat}
    (hk : k ≤ if rotation then ty.width - 1 else ty.width) :
    ty.shiftAmount (.int k) rotation = .ok k :=
  if_pos ⟨Int.natCast_nonneg k, Int.ofNat_le.mpr hk⟩

theorem ShiftOp.value_of_isWord (op : ShiftOp) (ty : ValueType) (hword : ty.isWord = true)
    (v : BitVec ty.width) {k : Nat} (hk : k ≤ if op.isRotation then ty.width - 1 else ty.width) :
    op.value ty v (.int k) = .ok (op.move v k) := by
  rw [value, if_pos hword, ValueType.shiftAmount_natCast hk]

/-- A call to a backend, with everything that the caller hands in. -/
inductive Request (Handle : ValueType → Type) where
  | supports (ty : ValueType) (wanted : Capability)
  | represents (ty : ValueType)
  | require (ty : ValueType) (wanted : Capability) (operation : Except Fault String)
  | constant (ty : ValueType) (value : Datum)
  | constants (ty : ValueType) (values : List Datum)
  | binary (op : BinaryOp) (ty : ValueType) (x y : Handle ty)
  | not (ty : ValueType) (x : Handle ty)
  | shift (op : ShiftOp) (ty : ValueType) (x : Handle ty) (amount : Datum)
  | checkedAdd (ty : ValueType) (x y : Handle ty)
  | assertTrue (x : Handle .bool)
  | assertEq (ty : ValueType) (x y : Handle ty)

/-- What a caller gets back. -/
inductive Answer (Handle : ValueType → Type) where
  | nothing
  | truth (b : Bool)
  | handle (ty : ValueType) (x : Handle ty)
  | handles (ty : ValueType) (xs : List (Handle ty))

namespace Backend

def answer (b : Backend σ Handle) : Request Handle → Action σ (Answer Handle)
  | .supports ty wanted => return .truth (b.table.supports ty wanted)
  | .represents ty => return .truth (b.table.represents ty)
  | .require ty wanted operation => do
    b.requireNamed ty wanted operation
    return .nothing
  | .constant ty value => return .handle ty (← b.constant ty value)
  | .constants ty values => return .handles ty (← b.constants ty values)
  | .binary op ty x y => return .handle ty (← op.run b ty x y)
  | .not ty x => return .handle ty (← b.not ty x)
  | .shift op ty x amount => return .handle ty (← op.run b ty x amount)
  | .checkedAdd ty x y => return .handle ty (← b.checkedAdd ty x y)
  | .assertTrue x => do
    b.assertTrue x
    return .nothing
  | .assertEq ty x y => do
    b.assertEq ty x y
    return .nothing

/-- The outcome of each request and the state that it leaves behind. A request that fails does
    not keep the next one from being made. -/
def transcript (b : Backend σ Handle) :
    σ → List (Request Handle) → List (Except Fault (Answer Handle) × σ)
  | _, [] => []
  | s, request :: requests =>
    let result := (b.answer request).exec s
    result :: b.transcript result.2 requests

end Backend

end WordCircuit
