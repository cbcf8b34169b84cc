import WordCircuit.Datum.Basic
import WordCircuit.Sha256.Padding
import WordCircuit.Text.Hex

namespace WordCircuit.Sha256

/-- The chaining state with these words, of which there must be eight. -/
def chain (words : List Datum) : Except Fault Datum :=
  if words.length = 8 then .ok (.chain words) else .error (.stateLength words.length)

/-- The octets of one word of a state, which must be an integer of 32 bits. -/
def wordOctets (word : Datum) : Except Fault (List UInt8) :=
  match word.integer? with
  | some n =>
    if 0 ≤ n ∧ n ≤ ValueType.u32.mask then .ok (toBigEndian 4 n.toNat) else .error .unencodable
  | none => .error .unencodable

/-- The words of a state in big-endian octets, one after the other. -/
def digest (words : List Datum) : Except Fault (List UInt8) := do
  return (← words.mapM wordOctets).flatten

/-- The digest in hexadecimal. -/
def hexDigest (words : List Datum) : Except Fault String :=
  (digest words).map Text.hex

end WordCircuit.Sha256
