import WordCircuit.Number.Basic
import WordCircuit.ValueType.Basic

namespace WordCircuit

/-- Everything that can be refused, one constructor for each cause. Values that
    only appear in the wording are kept as their displayed text. -/
inductive Fault where
  /-- A field needs a modulus of at least two. -/
  | modulusTooSmall (shown : String)
  /-- Two operands live in fields of different orders. -/
  | fieldMismatch (left right : Number)
  /-- A field element meets something that is neither an element nor an integer. -/
  | notAnOperand (kind : String)
  | notBoolean (shown : String)
  | notInteger (ty : ValueType) (kind : String)
  | outOfRange (ty : ValueType) (value : Int)
  | shiftNotInteger (kind : String)
  | shiftOutOfRange (ty : ValueType) (rotation : Bool) (amount : Int)
  /-- The backend has no constants of this type. -/
  | unrepresented (backend : String) (ty : ValueType)
  /-- The backend represents the type but does not offer the operation on it. -/
  | unsupported (backend operation : String) (ty : ValueType)
  /-- The backend publishes an operation that it does not define. -/
  | unimplemented
  | falseAssertion
  | unequal (left right : String)
  | sumOverflow (ty : ValueType) (left right : String)
  /-- An assignment has no entry for this variable. -/
  | unassigned (index : Int)
  /-- A constraint mentions a variable beyond the declared ones. -/
  | undeclared (index : Int) (declared : Nat)
  | constraintField (found expected : Number)
  | handleField (found expected : Number)
  | boundTooSmall (shown : String)
  | wordWidth (ty : ValueType) (found : Nat)
  /-- A single handle stands where a list of bits is needed. -/
  | notSequence
  | notABit (position : Nat) (shown : String)
  | stateLength (found : Nat)
  | chunkLength (found : Nat)
  /-- A word of a chaining state does not fit into thirty-two bits. -/
  | unencodable

namespace Fault

/-- The classes of fault that callers tell apart. -/
inductive Kind where
  | value
  | type
  | index
  | assertion
  | overflow
  | unimplemented
  | encoding
deriving DecidableEq

def kind : Fault → Kind
  | .notAnOperand _ | .unrepresented _ _ | .unsupported _ _ _ | .notSequence => .type
  | .unimplemented => .unimplemented
  | .falseAssertion | .unequal _ _ => .assertion
  | .sumOverflow _ _ _ => .overflow
  | .unassigned _ | .undeclared _ _ => .index
  | .unencodable => .encoding
  | _ => .value

/-- The wording of a fault; those that need no wording have the empty text. -/
def message : Fault → String
  | .modulusTooSmall shown => s!"Field modulus must be at least 2, got {shown}"
  | .fieldMismatch left right => s!"Field mismatch: {left.display} vs {right.display}"
  | .notAnOperand kind => s!"Cannot combine FieldElement with {kind}"
  | .notBoolean shown => s!"Not a bool value: {shown}"
  | .notInteger ty kind => s!"{ty.label} value must be an int, got {kind}"
  | .outOfRange ty value => s!"{ty.label} value out of range: {value}"
  | .shiftNotInteger kind => s!"Shift amount must be an int, got {kind}"
  | .shiftOutOfRange ty true amount => s!"Rotation amount {amount} out of range for {ty.label}"
  | .shiftOutOfRange ty false amount => s!"Shift amount {amount} out of range for {ty.label}"
  | .unrepresented backend ty => s!"{backend} cannot represent {ty.label}"
  | .unsupported backend operation ty => s!"{backend} does not support {operation} on {ty.label}"
  | .unimplemented => ""
  | .falseAssertion => "Assertion failed: value is false"
  | .unequal left right => s!"Assertion failed: {left} != {right}"
  | .sumOverflow ty left right => s!"{ty.label} addition overflow: {left} + {right}"
  | .unassigned index => s!"No value assigned to variable {index}"
  | .undeclared index declared =>
    s!"Constraint references variable {index}, only {declared} declared"
  | .constraintField found expected =>
    s!"Constraint over field {found.display}, system is over {expected.display}"
  | .handleField found expected =>
    s!"Handle over field {found.display}, system is over {expected.display}"
  | .boundTooSmall shown => s!"max_terms must be positive, got {shown}"
  | .wordWidth ty found => s!"{ty.label} handle must have {ty.width} bits, got {found}"
  | .notSequence => ""
  | .notABit position shown => s!"Bit {position} is not 0 or 1: {shown}"
  | .stateLength found => s!"SHA-256 state must have 8 words, got {found}"
  | .chunkLength found => s!"SHA-256 chunk must have 16 words, got {found}"
  | .unencodable => ""

end Fault

end WordCircuit
