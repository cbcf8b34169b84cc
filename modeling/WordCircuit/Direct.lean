import WordCircuit.Backend
import WordCircuit.Datum.Arithmetic
import WordCircuit.Datum.Equality
import WordCircuit.Integer
import WordCircuit.ValueType.Constant

namespace WordCircuit

namespace Direct

/-- The number behind a handle that is used as a number. A handle that is none counts
    as zero. -/
def number (d : Datum) : Int :=
  d.integer?.getD 0

/-- A connective on two handles: of two truth values it is a truth value. -/
def connective (onBools : Bool → Bool → Bool) (onIntegers : Int → Int → Int) :
    Datum → Datum → Datum
  | .bool a, .bool b => .bool (onBools a b)
  | a, b => .int (onIntegers (number a) (number b))

def conjunction : Datum → Datum → Datum :=
  connective Bool.and Integer.and

def disjunction : Datum → Datum → Datum :=
  connective Bool.or Integer.or

def exclusion : Datum → Datum → Datum :=
  connective Bool.xor Integer.xor

/-- Of a truth value the opposite, and of a word the complement within its width. -/
def negation : ValueType → Datum → Datum
  | .bool, a => .bool !a.truth
  | ty, a => .int (Integer.low ty.width (-number a - 1))

/-- The part of `n` shifted left by `k` joined with that shifted right by the rest
    of the width, cut down to the width. -/
def rotateLeft (ty : ValueType) (n : Int) (k : Nat) : Int :=
  Integer.low ty.width
    (Integer.or (Integer.shiftLeft n k) (Integer.shiftRight n (ty.width - k)))

def rotateRight (ty : ValueType) (n : Int) (k : Nat) : Int :=
  Integer.low ty.width
    (Integer.or (Integer.shiftRight n k) (Integer.shiftLeft n (ty.width - k)))

/-- Whether a handle is greater than every value of the type. -/
def exceeds (ty : ValueType) : Datum → Bool
  | .float x _ _ => decide (Float.ofNat ty.mask < x)
  | a => decide ((ty.mask : Int) < number a)

def name : String := "Eval"

/-- What direct evaluation offers: everything but checked addition on truth values,
    and everything but assertions of truth on words. -/
def table : Table where
  bool := some (.boolean ||| .assertTrue ||| .assertEq)
  u8 := some (.word ||| .add ||| .assertEq)
  u32 := some (.word ||| .add ||| .assertEq)

/-- The backend whose handles are the values themselves, under a table of one's own.
    Its operations do not check the range of their operands, so a handle can be any
    integer, and only some of them cut the result down to the width of the type.
    Constants and assertions are not gated by the table. -/
def backend (table : Table) : Backend Journal fun _ => Datum where
  name := name
  table := table
  note notice := modify fun journal => journal.note notice
  integer? := Datum.plainInteger?
  constant ty value := ty.validate value
  and ty a b := do
    table.require name ty .and "and"
    return conjunction a b
  or ty a b := do
    table.require name ty .or "or"
    return disjunction a b
  xor ty a b := do
    table.require name ty .xor "xor"
    return exclusion a b
  not ty a := do
    table.require name ty .not "not"
    return negation ty a
  shl ty a amount := do
    table.require name ty .shift "shl"
    let k ← ty.shiftAmount amount false
    return .int (Integer.low ty.width (Integer.shiftLeft (number a) k))
  shr ty a amount := do
    table.require name ty .shift "shr"
    let k ← ty.shiftAmount amount false
    return .int (Integer.shiftRight (number a) k)
  rotl ty a amount := do
    table.require name ty .rotate "rotl"
    let k ← ty.shiftAmount amount true
    return .int (rotateLeft ty (number a) k)
  rotr ty a amount := do
    table.require name ty .rotate "rotr"
    let k ← ty.shiftAmount amount true
    return .int (rotateRight ty (number a) k)
  wrappingAdd ty a b := do
    table.require name ty .wrappingAdd "wrapping_add"
    return .int (Integer.low ty.width (number (← a.add b)))
  checkedAdd ty a b := do
    table.require name ty .add "add"
    let total ← a.add b
    if exceeds ty total then
      throw (.sumOverflow ty (← a.plain) (← b.plain))
    return total
  assertTrue a := do
    if !a.truth then throw .falseAssertion
  assertEq _ a b := do
    if !a.same b then throw (.unequal a.display b.display)

end Direct

end WordCircuit
