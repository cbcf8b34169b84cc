import WordCircuit.Capability
import WordCircuit.Datum.Basic
import WordCircuit.Journal

namespace WordCircuit

/-- A computation on a state that may stop at a fault. What it did to the state
    before the fault stays done. -/
abbrev Action (σ : Type) := ExceptT Fault (StateM σ)

/-- An interpretation of the primitive operations. An algorithm that is written
    against this interface runs under every backend: what stands for a value of type
    `ty` is a handle in `Handle ty`, and the operations act on a state in `σ`.

    An operation that a backend leaves out is refused when the table does not offer
    it and is unimplemented when the table does. Disjunction alone has a definition
    of its own, from negation and conjunction. -/
structure Backend (σ : Type) (Handle : ValueType → Type) where
  name : String
  table : Table
  /-- Reports an event. -/
  note : Notice → Action σ Unit
  /-- The integer that the handle of a word is. There is none for a truth value, and
      none under a backend whose handles are no integers. -/
  integer? : Handle .u32 → Option Int
  /-- The handle of a known value. -/
  constant : (ty : ValueType) → Datum → Action σ (Handle ty)
  and : (ty : ValueType) → Handle ty → Handle ty → Action σ (Handle ty) :=
    fun ty _ _ => do
      table.require name ty .and "and"
      throw .unimplemented
  xor : (ty : ValueType) → Handle ty → Handle ty → Action σ (Handle ty) :=
    fun ty _ _ => do
      table.require name ty .xor "xor"
      throw .unimplemented
  not : (ty : ValueType) → Handle ty → Action σ (Handle ty) :=
    fun ty _ => do
      table.require name ty .not "not"
      throw .unimplemented
  or : (ty : ValueType) → Handle ty → Handle ty → Action σ (Handle ty) :=
    fun ty a b => do
      table.require name ty .or "or"
      let notA ← not ty a
      let notB ← not ty b
      not ty (← and ty notA notB)
  shl : (ty : ValueType) → Handle ty → Datum → Action σ (Handle ty) :=
    fun ty _ _ => do
      table.require name ty .shift "shl"
      throw .unimplemented
  shr : (ty : ValueType) → Handle ty → Datum → Action σ (Handle ty) :=
    fun ty _ _ => do
      table.require name ty .shift "shr"
      throw .unimplemented
  rotl : (ty : ValueType) → Handle ty → Datum → Action σ (Handle ty) :=
    fun ty _ _ => do
      table.require name ty .rotate "rotl"
      throw .unimplemented
  rotr : (ty : ValueType) → Handle ty → Datum → Action σ (Handle ty) :=
    fun ty _ _ => do
      table.require name ty .rotate "rotr"
      throw .unimplemented
  /-- The sum modulo the power of two of the width. -/
  wrappingAdd : (ty : ValueType) → Handle ty → Handle ty → Action σ (Handle ty) :=
    fun ty _ _ => do
      table.require name ty .wrappingAdd "wrapping_add"
      throw .unimplemented
  /-- The sum, refused when it does not fit. -/
  checkedAdd : (ty : ValueType) → Handle ty → Handle ty → Action σ (Handle ty) :=
    fun ty _ _ => do
      table.require name ty .add "add"
      throw .unimplemented
  assertTrue : Handle .bool → Action σ Unit :=
    fun _ => do
      table.require name .bool .assertTrue "assert"
      throw .unimplemented
  assertEq : (ty : ValueType) → Handle ty → Handle ty → Action σ Unit :=
    fun ty _ _ => do
      table.require name ty .assertEq "assert_eq"
      throw .unimplemented

namespace Backend

/-- Passes if the backend offers all of `wanted` on the type. -/
def require {σ : Type} {Handle : ValueType → Type} (b : Backend σ Handle) (ty : ValueType)
    (wanted : Capability) (operation : String) : Except Fault Unit :=
  b.table.require b.name ty wanted operation

/-- `require` for an operation whose name may fail to have a text. -/
def requireNamed {σ : Type} {Handle : ValueType → Type} (b : Backend σ Handle) (ty : ValueType)
    (wanted : Capability) (operation : Except Fault String) : Except Fault Unit :=
  b.table.requireNamed b.name ty wanted operation

/-- The handles of known values, in order. -/
def constants {σ : Type} {Handle : ValueType → Type} (b : Backend σ Handle)
    (ty : ValueType) (values : List Datum) : Action σ (List (Handle ty)) :=
  values.mapM (b.constant ty)

end Backend

end WordCircuit
