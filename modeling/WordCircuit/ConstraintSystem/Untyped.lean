import WordCircuit.ConstraintSystem.Gates
import WordCircuit.Datum.Arithmetic

namespace WordCircuit.ConstraintSystem

/-- Exclusive or of values of any kind. Where one plus one is zero it is their sum,
    which for two elements is an element. -/
def xorValues (table : Table) (ty : ValueType) (a b : Datum) : Action ConstraintSystem Datum := do
  table.require name ty .xor "xor"
  let s ← get
  s.checkHandle a.asCombination
  s.checkHandle b.asCombination
  if s.modulus.isCharacteristicTwo then
    match ← a.add b with
    | .combination x => return .combination (← compact x)
    | d => return d
  else
    return .combination (← xor table ty a.asCombination b.asCombination)

/-- Asserts the equality of values of any kind by their difference. -/
def assertEqValues (table : Table) (ty : ValueType) (a b : Datum) :
    Action ConstraintSystem Unit := do
  table.require name ty .assertEq "assert_eq"
  let difference ← a.sub b
  satisfy ⟨difference.asCombination, ← one, .zero (← get).order⟩

/-- The constraint system as a backend whose handles are values of any kind. On
    combinations it does what `backend` does, and an element serves as a constant. -/
def untyped (table : Table) : Backend ConstraintSystem fun _ => Datum where
  name := name
  table := table
  note := note
  integer? := Datum.plainInteger?
  constant ty value := .combination <$> constant table ty value
  and ty a b := .combination <$> and table ty a.asCombination b.asCombination
  xor := xorValues table
  not ty a := .combination <$> not table ty a.asCombination
  assertTrue a := assertTrue table a.asCombination
  assertEq := assertEqValues table

end WordCircuit.ConstraintSystem
