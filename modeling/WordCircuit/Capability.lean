import WordCircuit.Fault

namespace WordCircuit

/-- A set of primitive operations, one bit for each operation. -/
structure Capability where
  flags : BitVec 10
deriving DecidableEq

namespace Capability

/-- The empty set. -/
def none : Capability := ⟨0⟩

def and : Capability := ⟨1⟩
def or : Capability := ⟨2⟩
def xor : Capability := ⟨4⟩
def not : Capability := ⟨8⟩

/-- Shifts to either side by a known amount. -/
def shift : Capability := ⟨16⟩

/-- Rotations to either side by a known amount. -/
def rotate : Capability := ⟨32⟩

def wrappingAdd : Capability := ⟨64⟩

/-- Addition that refuses to wrap. -/
def add : Capability := ⟨128⟩

def assertTrue : Capability := ⟨256⟩
def assertEq : Capability := ⟨512⟩

instance : OrOp Capability := ⟨fun a b => ⟨a.flags ||| b.flags⟩⟩

/-- The connectives of propositional logic. -/
def boolean : Capability := .and ||| .or ||| .xor ||| .not

/-- What a type of words offers: bitwise connectives, movement of bits and
    addition modulo a power of two. -/
def word : Capability := .boolean ||| .shift ||| .rotate ||| .wrappingAdd

/-- Whether every operation of `wanted` is among those of `offered`. -/
def includes (offered wanted : Capability) : Bool :=
  offered.flags &&& wanted.flags == wanted.flags

/-- The single operations with their names, by increasing bit. -/
def names : List (Capability × String) :=
  [(.and, "AND"), (.or, "OR"), (.xor, "XOR"), (.not, "NOT"), (.shift, "SHIFT"),
    (.rotate, "ROTATE"), (.wrappingAdd, "WRAPPING_ADD"), (.add, "ADD"),
    (.assertTrue, "ASSERT"), (.assertEq, "ASSERT_EQ")]

/-- The number of the set. -/
def number (c : Capability) : Nat :=
  c.flags.toNat

/-- The name of a set, which is put together from those of its operations if it has
    none of its own. -/
def label (c : Capability) : String :=
  if c = .none then "NONE"
  else if c = .boolean then "BOOLEAN"
  else if c = .word then "WORD"
  else "|".intercalate ((names.filter fun entry => c.includes entry.1).map Prod.snd)

/-- The text that shows a set with its name and its number. -/
def display (c : Capability) : String :=
  s!"<Capability.{c.label}: {c.number}>"

/-- Conjunction and negation give disjunction, so a set with the first two
    counts as having the third. -/
def closure (c : Capability) : Capability :=
  if c.includes .and && c.includes .not then c ||| .or else c

end Capability

/-- What a backend publishes: the operations it offers on each type that it
    represents, and nothing for a type that it does not represent. -/
structure Table where
  bool : Option Capability
  u8 : Option Capability
  u32 : Option Capability
deriving DecidableEq

namespace Table

/-- The table that represents no type. -/
def empty : Table := ⟨Option.none, Option.none, Option.none⟩

/-- What is offered on a type, if it is represented. -/
def offered? (table : Table) : ValueType → Option Capability
  | .bool => table.bool
  | .u8 => table.u8
  | .u32 => table.u32

def insert (table : Table) (ty : ValueType) (offered : Capability) : Table :=
  match ty with
  | .bool => { table with bool := some offered }
  | .u8 => { table with u8 := some offered }
  | .u32 => { table with u32 := some offered }

def ofList (entries : List (ValueType × Capability)) : Table :=
  entries.foldl (fun table entry => table.insert entry.1 entry.2) empty

/-- Whether constants of the type can be built. -/
def represents (table : Table) (ty : ValueType) : Bool :=
  (table.offered? ty).isSome

/-- Whether every operation of `wanted` is available on `ty`. The empty set is
    available even on a type that is not represented. -/
def supports (table : Table) (ty : ValueType) (wanted : Capability) : Bool :=
  ((table.offered? ty).getD .none).closure.includes wanted

/-- Passes if the backend called `backend` represents `ty` with all of `wanted`.
    The refusal names the operation, or the set's number when it has no name. -/
def require (table : Table) (backend : String) (ty : ValueType) (wanted : Capability)
    (operation : String) : Except Fault Unit :=
  if !table.represents ty then
    .error (.unrepresented backend ty)
  else if !table.supports ty wanted then
    let name := if operation.isEmpty then toString wanted.number else operation
    .error (.unsupported backend name ty)
  else
    .ok ()

/-- `require` for an operation whose name may fail to have a text. The text is only
    looked at where it is needed, for a refusal of the operation. -/
def requireNamed (table : Table) (backend : String) (ty : ValueType) (wanted : Capability) :
    (operation : Except Fault String) → Except Fault Unit
  | .ok operation => table.require backend ty wanted operation
  | .error fault =>
    if table.represents ty && !table.supports ty wanted then .error fault
    else table.require backend ty wanted ""

end Table

end WordCircuit
