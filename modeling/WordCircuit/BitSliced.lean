import WordCircuit.Backend
import WordCircuit.Integer
import WordCircuit.ValueType.Constant

namespace WordCircuit

namespace BitSliced

/-- Truth values keep the handles `β` of the inner backend, and a word is the list
    of its bits, lowest first. -/
abbrev Handle (β : Type) : ValueType → Type
  | .bool => β
  | .u8 => List β
  | .u32 => List β

def name : String := "BinaryEmulate"

variable {σ : Type} {Inner : ValueType → Type}

/-- An assertion, if the inner backend has it on truth values. -/
def inherited (inner : Backend σ Inner) (assertion : Capability) : Capability :=
  if inner.table.supports .bool assertion then assertion else .none

/-- What slicing offers over an inner backend: all connectives on truth values and
    all operations of words, with the assertions that the inner backend has. -/
def table (inner : Backend σ Inner) : Table where
  bool := some (.boolean ||| inherited inner .assertTrue ||| inherited inner .assertEq)
  u8 := some (.word ||| inherited inner .assertEq)
  u32 := some (.word ||| inherited inner .assertEq)

/-- Passes if a word has as many bits as its type. -/
def checkWidth {β : Type} (ty : ValueType) (bits : List β) : Except Fault Unit :=
  if bits.length = ty.width then .ok () else .error (.wordWidth ty bits.length)

/-- Whether bit `i` of a number is set. -/
def bitOf (n : Int) (i : Nat) : Bool :=
  Integer.shiftRight n i % 2 == 1

/-- The bits of a known word. -/
def constantBits (inner : Backend σ Inner) (ty : ValueType) (value : Datum) :
    Action σ (List (Inner .bool)) := do
  let canonical ← ty.validate value
  let n := canonical.integer?.getD 0
  (List.range ty.width).mapM fun i => inner.constant .bool (.bool (bitOf n i))

/-- Applies an operation to the bits of two words, position by position. -/
def bitwise {β : Type} (op : β → β → Action σ β) (ty : ValueType) (a b : List β) :
    Action σ (List β) := do
  checkWidth ty a
  checkWidth ty b
  (a.zip b).mapM fun bits => op bits.1 bits.2

def complement {β : Type} (op : β → Action σ β) (ty : ValueType) (a : List β) :
    Action σ (List β) := do
  checkWidth ty a
  a.mapM op

/-- Moves the bits up by `amount` and fills with zeros from below. -/
def shiftUp (inner : Backend σ Inner) (ty : ValueType) (amount : Datum)
    (a : List (Inner .bool)) : Action σ (List (Inner .bool)) := do
  let k ← ty.shiftAmount amount false
  checkWidth ty a
  let zero ← inner.constant .bool (.bool false)
  return List.replicate k zero ++ a.take (ty.width - k)

/-- Moves the bits down by `amount` and fills with zeros from above. -/
def shiftDown (inner : Backend σ Inner) (ty : ValueType) (amount : Datum)
    (a : List (Inner .bool)) : Action σ (List (Inner .bool)) := do
  let k ← ty.shiftAmount amount false
  checkWidth ty a
  let zero ← inner.constant .bool (.bool false)
  return a.drop k ++ List.replicate k zero

def rotateUp {β : Type} (ty : ValueType) (amount : Datum) (a : List β) :
    Action σ (List β) := do
  let k ← ty.shiftAmount amount true
  checkWidth ty a
  return a.drop (ty.width - k) ++ a.take (ty.width - k)

def rotateDown {β : Type} (ty : ValueType) (amount : Datum) (a : List β) :
    Action σ (List β) := do
  let k ← ty.shiftAmount amount true
  checkWidth ty a
  return a.drop k ++ a.take k

/-- Adds the bits of two words from the lowest on, with a carry. The last position
    computes no further carry. -/
def ripple (inner : Backend σ Inner) (carry : Inner .bool) :
    List (Inner .bool × Inner .bool) → Action σ (List (Inner .bool))
  | [] => return []
  | (x, y) :: rest => do
    let p ← inner.xor .bool x y
    let sum ← inner.xor .bool p carry
    if rest.isEmpty then
      return [sum]
    else
      let both ← inner.and .bool x y
      let passed ← inner.and .bool carry p
      let next ← inner.or .bool both passed
      return sum :: (← ripple inner next rest)

def addBits (inner : Backend σ Inner) (ty : ValueType) (a b : List (Inner .bool)) :
    Action σ (List (Inner .bool)) := do
  checkWidth ty a
  checkWidth ty b
  let carry ← inner.constant .bool (.bool false)
  ripple inner carry (a.zip b)

/-- Asserts equality of two words bit by bit. -/
def assertBits (inner : Backend σ Inner) (ty : ValueType) (a b : List (Inner .bool)) :
    Action σ Unit := do
  checkWidth ty a
  checkWidth ty b
  (a.zip b).forM fun bits => inner.assertEq .bool bits.1 bits.2

/-- Slicing with a list of bits as the handle of every type, for callers who hand in a
    truth value as a word of one bit. Connectives act bit by bit, shifts and rotations only move
    handles, and addition is a ripple-carry adder. -/
def words (inner : Backend σ Inner) (table : Table) : Backend σ fun _ => List (Inner .bool) where
  name := name
  table := table
  note := inner.note
  integer? _ := none
  constant ty value := do
    table.require name ty .none "constant"
    constantBits inner ty value
  and ty a b := do
    table.require name ty .and "and"
    bitwise (inner.and .bool) ty a b
  or ty a b := do
    table.require name ty .or "or"
    bitwise (inner.or .bool) ty a b
  xor ty a b := do
    table.require name ty .xor "xor"
    bitwise (inner.xor .bool) ty a b
  not ty a := do
    table.require name ty .not "not"
    complement (inner.not .bool) ty a
  shl ty a amount := do
    table.require name ty .shift "shl"
    shiftUp inner ty amount a
  shr ty a amount := do
    table.require name ty .shift "shr"
    shiftDown inner ty amount a
  rotl ty a amount := do
    table.require name ty .rotate "rotl"
    rotateUp ty amount a
  rotr ty a amount := do
    table.require name ty .rotate "rotr"
    rotateDown ty amount a
  wrappingAdd ty a b := do
    table.require name ty .wrappingAdd "wrapping_add"
    addBits inner ty a b
  assertTrue a := do
    table.require name .bool .assertTrue "assert"
    checkWidth .bool a
    a.forM inner.assertTrue
  assertEq ty a b := do
    table.require name ty .assertEq "assert_eq"
    assertBits inner ty a b

/-- An operation on one handle that acts on truth values and on words separately. -/
def unary {β : Type} (onWord : ValueType → List β → Action σ (List β))
    (onBool : β → Action σ β) :
    (ty : ValueType) → Handle β ty → Action σ (Handle β ty)
  | .bool, a => onBool a
  | .u8, a => onWord .u8 a
  | .u32, a => onWord .u32 a

/-- An operation on two handles that acts on truth values and on words separately. -/
def binary {β : Type} (onWord : ValueType → List β → List β → Action σ (List β))
    (onBool : β → β → Action σ β) :
    (ty : ValueType) → Handle β ty → Handle β ty → Action σ (Handle β ty)
  | .bool, a, b => onBool a b
  | .u8, a, b => onWord .u8 a b
  | .u32, a, b => onWord .u32 a b

/-- A shift or rotation of a truth value, which is no list of bits: under a table that
    offers it the amount is still checked, and then it fails. -/
def moveTruth {β : Type} (table : Table) (wanted : Capability) (operation : String)
    (rotation : Bool) (amount : Datum) : Action σ β := do
  table.require name .bool wanted operation
  let _ ← ValueType.bool.shiftAmount amount rotation
  throw .notSequence

/-- An addition of truth values, which fails in the same way. -/
def addTruths {β : Type} (table : Table) : Action σ β := do
  table.require name .bool .wrappingAdd "wrapping_add"
  throw .notSequence

/-- Slicing over an inner backend, under a table of one's own. Constants, connectives
    and assertions of truth values are those of the inner backend; everything else
    is done to words only. -/
def backend (inner : Backend σ Inner) (table : Table) : Backend σ (Handle (Inner .bool)) where
  name := name
  table := table
  note := inner.note
  integer? _ := none
  constant
    | .bool, value => do
      table.require name .bool .none "constant"
      inner.constant .bool (← ValueType.bool.validate value)
    | .u8, value => (words inner table).constant .u8 value
    | .u32, value => (words inner table).constant .u32 value
  and := binary (words inner table).and fun a b => do
    table.require name .bool .and "and"
    inner.and .bool a b
  or := binary (words inner table).or fun a b => do
    table.require name .bool .or "or"
    inner.or .bool a b
  xor := binary (words inner table).xor fun a b => do
    table.require name .bool .xor "xor"
    inner.xor .bool a b
  not := unary (words inner table).not fun a => do
    table.require name .bool .not "not"
    inner.not .bool a
  shl ty a amount := unary (fun ty a => (words inner table).shl ty a amount)
    (fun _ => moveTruth table .shift "shl" false amount) ty a
  shr ty a amount := unary (fun ty a => (words inner table).shr ty a amount)
    (fun _ => moveTruth table .shift "shr" false amount) ty a
  rotl ty a amount := unary (fun ty a => (words inner table).rotl ty a amount)
    (fun _ => moveTruth table .rotate "rotl" true amount) ty a
  rotr ty a amount := unary (fun ty a => (words inner table).rotr ty a amount)
    (fun _ => moveTruth table .rotate "rotr" true amount) ty a
  wrappingAdd := binary (words inner table).wrappingAdd fun _ _ => addTruths table
  assertTrue a := do
    table.require name .bool .assertTrue "assert"
    inner.assertTrue a
  assertEq
    | .bool, a, b => do
      table.require name .bool .assertEq "assert_eq"
      inner.assertEq .bool a b
    | .u8, a, b => (words inner table).assertEq .u8 a b
    | .u32, a, b => (words inner table).assertEq .u32 a b

/-- Slices a backend that has all connectives on truth values. -/
def wrap (inner : Backend σ Inner) : Except Fault (Backend σ (Handle (Inner .bool))) := do
  inner.require .bool .boolean "binary emulation"
  return backend inner (table inner)

end BitSliced

end WordCircuit
