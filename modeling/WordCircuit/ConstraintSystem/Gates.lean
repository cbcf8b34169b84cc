import WordCircuit.ConstraintSystem.Basic
import WordCircuit.ValueType.Constant

namespace WordCircuit.ConstraintSystem

def name : String := "ArithmeticSystem"

/-- Truth values have every connective and both assertions. Bytes can be compared
    where they stay distinct modulo `p`; there is no further type. -/
def table (p : Modulus) : Table where
  bool := some (.and ||| .xor ||| .not ||| .assertTrue ||| .assertEq)
  u8 := if ValueType.u8.width ≤ p.capacityBits then some .assertEq else none
  u32 := none

/-- Passes if the handle is over the field of the system. -/
def checkHandle (s : ConstraintSystem) (x : Combination) : Except Fault Unit :=
  if x.order.same s.order then .ok ()
  else .error (.handleField x.order.number s.order.number)

/-- The constant one. -/
def one : Action ConstraintSystem Combination := do
  return .one (← get).order

/-- Replaces a combination with too many terms by a variable that is constrained
    to be equal to it. -/
def compact (x : Combination) : Action ConstraintSystem Combination := do
  if (← get).maxTerms.allows x.terms.size then
    return x
  else
    let v ← fresh
    satisfy ⟨x, ← one, v⟩
    return v

/-- A variable constrained to its own square, which leaves it zero or one over a
    prime modulus. -/
def allocBool : Action ConstraintSystem Combination := do
  let v ← fresh
  satisfy ⟨v, v, v⟩
  return v

/-- A constant of a type that the table represents. -/
def constant (table : Table) (ty : ValueType) (value : Datum) :
    Action ConstraintSystem Combination := do
  table.require name ty .none "constant"
  let canonical ← ty.validate value
  return .ofElement (.ofNumber (← get).order (.int (canonical.integer?.getD 0)))

/-- A variable constrained to be the product. -/
def and (table : Table) (ty : ValueType) (a b : Combination) :
    Action ConstraintSystem Combination := do
  table.require name ty .and "and"
  let s ← get
  s.checkHandle a
  s.checkHandle b
  let c ← fresh
  satisfy ⟨a, b, c⟩
  return c

/-- The sum where one plus one is zero, and otherwise `a + b - 2 (a and b)`. -/
def xor (table : Table) (ty : ValueType) (a b : Combination) :
    Action ConstraintSystem Combination := do
  table.require name ty .xor "xor"
  let s ← get
  s.checkHandle a
  s.checkHandle b
  if s.modulus.isCharacteristicTwo then
    compact (← a.add b)
  else
    let both ← and table ty a b
    let sum ← a.add b
    compact (← sum.sub (← both.scale (.int 2)))

/-- One minus the handle. -/
def not (table : Table) (ty : ValueType) (a : Combination) :
    Action ConstraintSystem Combination := do
  table.require name ty .not "not"
  (← get).checkHandle a
  (← one).sub a

/-- Constrains a handle to be one. -/
def assertTrue (table : Table) (a : Combination) : Action ConstraintSystem Unit := do
  table.require name .bool .assertTrue "assert"
  satisfy ⟨a, ← one, ← one⟩

/-- Constrains two handles to have the difference zero. -/
def assertEq (table : Table) (ty : ValueType) (a b : Combination) :
    Action ConstraintSystem Unit := do
  table.require name ty .assertEq "assert_eq"
  let difference ← a.sub b
  satisfy ⟨difference, ← one, .zero (← get).order⟩

/-- The sum of the bits, each weighted by its power of two. -/
def weightedSum (order : Order) (bits : List Combination) : Except Fault Combination :=
  bits.zipIdx.foldlM (fun total entry => do
    total.add (← entry.1.scale (.int (1 <<< entry.2 : Nat)))) (.zero order)

/-- Declares eight bits, lowest first, and constrains their weighted sum to be the
    handle, which thereby is below 256. -/
def decomposeByte (table : Table) (value : Combination) :
    Action ConstraintSystem (List Combination) := do
  table.require name .u8 .assertEq "decompose_byte"
  let bits ← (List.range ValueType.u8.width).mapM fun _ => allocBool
  let total ← weightedSum (← get).order bits
  satisfy ⟨total, ← one, value⟩
  return bits

/-- The constraint system as a backend, under a table of one's own, so that it can
    publish less than it is able to do. -/
def backend (table : Table) : Backend ConstraintSystem fun _ => Combination where
  name := name
  table := table
  note := note
  integer? _ := none
  constant := constant table
  and := and table
  xor := xor table
  not := not table
  assertTrue := assertTrue table
  assertEq := assertEq table

end WordCircuit.ConstraintSystem
