import WordCircuit.Datum.Equality
import WordCircuit.Datum.Text

namespace WordCircuit.Bits

/-- The value of one bit. An element of a field counts by its canonical value; anything that
    does not equal zero or one is refused with its position. -/
def value (position : Nat) (bit : Datum) : Except Fault Nat :=
  let plain : Datum :=
    match bit with
    | .element e => .ofElement e
    | d => d
  if plain.same (.int 0) then .ok 0
  else if plain.same (.int 1) then .ok 1
  else .error (.notABit position plain.display)

/-- The number that bits stand for, the first of them at `position`. -/
def decodeFrom (position : Nat) : List Datum → Except Fault Nat
  | [] => .ok 0
  | bit :: rest => do
    let low ← value position bit
    let high ← decodeFrom (position + 1) rest
    return low + 2 * high

/-- The number that bits stand for, lowest first. -/
def decode (bits : List Datum) : Except Fault Nat :=
  decodeFrom 0 bits

end WordCircuit.Bits
