import WordCircuit.Sha256.Digest
import WordCircuit.Text.Quoted

namespace WordCircuit.Datum

mutual

/-- The text that shows a value together with its kind. -/
def display : Datum → String
  | .null => "None"
  | .bool b => if b then "True" else "False"
  | .int n => toString n
  | .float _ shown _ => shown
  | .text s => Text.quoted s
  | .bytes octets => Text.quotedOctets octets
  | .list items => "[" ++ ", ".intercalate (displayAll items) ++ "]"
  | .type ty => ty.display
  | .table entries =>
    let texts := entries.map fun entry => entry.1.display ++ ": " ++ entry.2.display
    "\x7b" ++ ", ".intercalate texts ++ "\x7d"
  | .field order label _ => s!"PrimeField(modulus={order.display}, name={label.display})"
  | .element e => e.display
  | .var index => s!"Variable(index={index})"
  | .combination x => x.display
  | .constraint a b c =>
    s!"ProductConstraint(operand_a={a.display}, operand_b={b.display}, result={c.display})"
  | .chain words => "Sha256(words=(" ++ ", ".intercalate (displayAll words) ++ "))"
  | .backend name serial _ => s!"<{name} {serial}>"

def displayAll : List Datum → List String
  | [] => []
  | item :: rest => item.display :: displayAll rest

end

/-- The text of a value by itself: a text is not quoted, an element is its number
    and a chaining state its hexadecimal digest. Other kinds have one text only. -/
def plain : Datum → Except Fault String
  | .text s => .ok s
  | .element e => .ok e.number.display
  | .chain words => Sha256.hexDigest words
  | d => .ok d.display

end WordCircuit.Datum
