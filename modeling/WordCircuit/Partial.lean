import WordCircuit.Datum.Arithmetic
import WordCircuit.Direct

namespace WordCircuit

namespace Partial

/-- A backend that publishes a table and defines constants only. -/
def constantsOnly (table : Table) : Backend Journal fun _ => Datum where
  name := "StubSystem"
  table := table
  note notice := modify fun journal => journal.note notice
  integer? := Datum.plainInteger?
  constant ty value := ty.validate value

/-- A backend that defines constants, conjunction and negation, without looking at
    its own table, and negates by subtracting from the mask. -/
def conjunctionNegation (table : Table) : Backend Journal fun _ => Datum where
  name := "AndNotSystem"
  table := table
  note notice := modify fun journal => journal.note notice
  integer? := Datum.plainInteger?
  constant ty value := ty.validate value
  and _ a b := return Direct.conjunction a b
  not ty a := (Datum.int ty.mask).sub a

end Partial

end WordCircuit
