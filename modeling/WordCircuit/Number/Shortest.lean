import WordCircuit.Number.Magnitude

namespace WordCircuit

/-- The number `digits * 10 ^ exponent`. -/
structure Decimal where
  digits : Nat
  exponent : Int

namespace Magnitude

/-- Compares `a * 10 ^ i` with `b * 2 ^ j`. -/
def compareScaled (a : Nat) (i : Int) (b : Nat) (j : Int) : Ordering :=
  compare ((a * Nat.pow 10 i.toNat) <<< (-j).toNat) ((b <<< j.toNat) * Nat.pow 10 (-i).toNat)

/-- Whether the magnitude is the nearest one to a decimal. The decimal must lie between
    the middles to both neighbours, and may lie on them if the significand is even. -/
def readsBack (x : Magnitude) (d : Decimal) : Bool :=
  let low := 4 * x.significand - (if x.narrowBelow then 1 else 2)
  let high := 4 * x.significand + 2
  let overLow := compareScaled d.digits d.exponent low (x.exponent - 2)
  let overHigh := compareScaled d.digits d.exponent high (x.exponent - 2)
  if x.significand % 2 = 0 then overLow != .lt && overHigh != .gt
  else overLow == .gt && overHigh == .lt

/-- How often `10 ^ exponent` goes into the magnitude. -/
def quotient (x : Magnitude) (exponent : Int) : Nat :=
  (x.significand <<< x.exponent.toNat) * Nat.pow 10 (-exponent).toNat /
    (Nat.pow 10 exponent.toNat <<< (-x.exponent).toNat)

/-- The least power of ten that is greater than the magnitude, by its exponent. The
    least magnitude that is not zero exceeds `10 ^ (-350)`. -/
def leadingPlace (x : Magnitude) : Int :=
  ((Nat.toDigits 10 (x.quotient (-350))).length : Int) - 350

/-- The multiple of `10 ^ exponent` that stands for the magnitude, if one does: of the
    two next to it the nearer one, and halfway between them the even one. -/
def onGrid (x : Magnitude) (exponent : Int) : Option Decimal :=
  let n := x.quotient exponent
  let lower : Decimal := ⟨n, exponent⟩
  let upper : Decimal := ⟨n + 1, exponent⟩
  match x.readsBack lower, x.readsBack upper with
  | false, false => none
  | true, false => some lower
  | false, true => some upper
  | true, true =>
    match compareScaled (2 * n + 1) exponent (2 * x.significand) x.exponent with
    | .gt => some lower
    | .lt => some upper
    | .eq => some (if n % 2 = 0 then lower else upper)

/-- The decimal that is the magnitude itself. -/
def toDecimal (x : Magnitude) : Decimal :=
  ⟨(x.significand <<< x.exponent.toNat) * Nat.pow 5 (-x.exponent).toNat, min x.exponent 0⟩

/-- The decimal with the fewest digits that stands for the magnitude. Seventeen digits
    always suffice. -/
def shortest (x : Magnitude) : Decimal :=
  ((List.range 17).findSome? fun (n : Nat) => x.onGrid (x.leadingPlace - (n + 1))).getD x.toDecimal

end Magnitude

/-- Digits with the point after the first `point` of them, and at least one digit on
    either side. -/
def positional (digits : List Char) (point : Int) : String :=
  let padded := List.replicate (1 - point).toNat '0' ++ digits
  let whole := max point 1
  let integral := padded ++ List.replicate (whole.toNat - padded.length) '0'
  let fraction := integral.drop whole.toNat
  String.ofList (integral.take whole.toNat) ++ "." ++
    (if fraction.isEmpty then "0" else String.ofList fraction)

/-- Digits with the point after the first of them, and a power of ten of at least two
    places. -/
def scientific (digits : List Char) (point : Int) : String :=
  let power := point - 1
  let places := toString power.natAbs
  String.ofList (digits.take 1) ++
    (if digits.length ≤ 1 then "" else "." ++ String.ofList (digits.drop 1)) ++
    (if power < 0 then "e-" else "e+") ++ (if places.length < 2 then "0" else "") ++ places

/-- A decimal that is not zero, without needless zeros. From sixteen places before the
    point to three zeros after it all places are written out. -/
def Decimal.text (d : Decimal) : String :=
  let all := Nat.toDigits 10 d.digits
  let digits := (all.reverse.dropWhile fun c => c == '0').reverse
  let point := (all.length : Int) + d.exponent
  if -4 < point ∧ point ≤ 16 then positional digits point else scientific digits point

/-- The shortest text that denotes a floating-point number. -/
def floatText (x : Float) : String :=
  let sign := if hasSign x then "-" else ""
  match Magnitude.ofFloat? x with
  | some size => sign ++ if size.significand = 0 then "0.0" else size.shortest.text
  | none => if x.isNaN then "nan" else sign ++ "inf"

end WordCircuit
