namespace WordCircuit

/-- The absolute value of a finite floating-point number, which is
    `significand * 2 ^ exponent`. -/
structure Magnitude where
  significand : Nat
  exponent : Int
  /-- Whether the next smaller number is only half as far away as the next greater one. -/
  narrowBelow : Bool

namespace Magnitude

/-- The magnitude of a number, unless it is infinite or no number at all. -/
def ofFloat? (x : Float) : Option Magnitude :=
  let bits := x.toBits.toNat
  let biased := (bits >>> 52) % 2048
  let fraction := bits % (1 <<< 52)
  if biased = 2047 then none
  else if biased = 0 then some ⟨fraction, -1074, false⟩
  else some ⟨(1 <<< 52) + fraction, (biased : Int) - 1075, fraction == 0 && biased != 1⟩

/-- The natural number that a magnitude is, if it is one. -/
def toNat? (x : Magnitude) : Option Nat :=
  let whole := x.significand <<< x.exponent.toNat
  let divisor := 1 <<< (-x.exponent).toNat
  if whole % divisor = 0 then some (whole / divisor) else none

/-- The remainder of one magnitude divided by another. It is a multiple of the unit of
    the smaller exponent and below the divisor, so no digit of it is lost. -/
def remainder (x y : Magnitude) : Float :=
  let exponent := min x.exponent y.exponent
  let units (z : Magnitude) : Nat := z.significand <<< (z.exponent - exponent).toNat
  (Float.ofNat (units x % units y)).scaleB exponent

end Magnitude

/-- Whether the sign of a floating-point number is set, as it is on the lesser of the
    two zeros. -/
def hasSign (x : Float) : Bool :=
  decide (1 <<< 63 ≤ x.toBits.toNat)

/-- The integer that a floating-point number denotes, if it denotes one. -/
def integerOfFloat (x : Float) : Option Int :=
  ((Magnitude.ofFloat? x).bind Magnitude.toNat?).map fun n => if hasSign x then -(n : Int) else n

/-- The remainder that is not negative, for a divisor that is greater than zero. For a
    negative number it is what is missing to the divisor, rounded like every difference.
    Infinity divides every number less often than once. -/
def floatRemainder (x divisor : Float) : Float :=
  match Magnitude.ofFloat? x, Magnitude.ofFloat? divisor with
  | none, _ => 0 / 0
  | some n, some d =>
    let rest := n.remainder d
    if rest == 0 then 0 else if hasSign x then divisor - rest else rest
  | some _, none =>
    if x == 0 && !divisor.isNaN then 0
    else if x < 0 || divisor.isNaN then divisor
    else x

end WordCircuit
