import WordCircuit.Backend
import WordCircuit.Datum.Text
import WordCircuit.ValueType.Constant

namespace WordCircuit

/-- A record of the operations that a computation asked for, one line for each. -/
structure Trace where
  lines : Array String
  journal : Journal

namespace Trace

def empty : Trace := ⟨#[], .empty⟩

/-- Writes a line and gives the name of its outcome. -/
def write (line : String) : Action Trace Datum :=
  modifyGet fun trace =>
    (.text s!"h{trace.lines.size}", { trace with lines := trace.lines.push line })

/-- Writes the line of an operation and its operands. -/
def record (operation : String) (ty : ValueType) (operands : List Datum) :
    Action Trace Datum := do
  let texts ← (operands.mapM Datum.plain : Except Fault (List String))
  write (" ".intercalate (operation :: ty.label :: texts))

/-- The operations of words, on every type. -/
def table : Table := ⟨some .word, some .word, some .word⟩

/-- The backend that computes nothing and writes down what it is asked for. Its
    handles are names: `h7` is the outcome of line number seven. It checks neither
    operands nor its own table. -/
def backend : Backend Trace fun _ => Datum where
  name := "TraceSystem"
  table := table
  note notice := modify fun trace => { trace with journal := trace.journal.note notice }
  integer? := Datum.plainInteger?
  constant ty value := do record "const" ty [← ty.validate value]
  and ty a b := record "and" ty [a, b]
  or ty a b := record "or" ty [a, b]
  xor ty a b := record "xor" ty [a, b]
  not ty a := record "not" ty [a]
  shl ty a amount := record "shl" ty [a, amount]
  shr ty a amount := record "shr" ty [a, amount]
  rotl ty a amount := record "rotl" ty [a, amount]
  rotr ty a amount := record "rotr" ty [a, amount]
  wrappingAdd ty a b := record "wadd" ty [a, b]

end Trace

end WordCircuit
