import WordCircuit.Datum.Text

namespace WordCircuit.ValueType

/-- The canonical form of a constant of the type. A truth value may be given as zero
    or one and becomes a truth value; a word is an integer, and no truth value, that
    is not negative and not above the mask. -/
def validate (ty : ValueType) (value : Datum) : Except Fault Datum :=
  match ty, value with
  | .bool, .bool b => .ok (.bool b)
  | .bool, .int 0 => .ok (.bool false)
  | .bool, .int 1 => .ok (.bool true)
  | .bool, d => .error (.notBoolean d.display)
  | ty, .int n => if 0 ≤ n ∧ n ≤ ty.mask then .ok (.int n) else .error (.outOfRange ty n)
  | ty, d => .error (.notInteger ty d.kind)

/-- The number of bits to move by. A shift may move by the whole width and a
    rotation only by less. -/
def shiftAmount (ty : ValueType) (amount : Datum) (rotation : Bool) : Except Fault Nat :=
  match amount with
  | .int k =>
    let greatest := if rotation then ty.width - 1 else ty.width
    if 0 ≤ k ∧ k ≤ greatest then .ok k.toNat else .error (.shiftOutOfRange ty rotation k)
  | d => .error (.shiftNotInteger d.kind)

end WordCircuit.ValueType
