import WordCircuit.Field.Modulus

namespace WordCircuit

/-- The order of a field as it is given. Nothing but an integer makes sense, but a
    floating-point number passes as well. What is computed with it is not exact. -/
inductive Order where
  | exact (p : Modulus)
  | inexact (x : Float)

namespace Order

def number : Order → Number
  | .exact p => .int p.size
  | .inexact x => .float x

/-- The modulus that the order is, which a floating-point number is not. -/
def modulus : Order → Except Fault Modulus
  | .exact p => .ok p
  | .inexact x => .error (.modulusTooSmall (floatText x))

/-- Whether two orders have the same value. -/
def same : Order → Order → Bool
  | .exact p, .exact q => decide (p = q)
  | a, b => a.number.same b.number

def display (a : Order) : String :=
  a.number.display

end Order

end WordCircuit
