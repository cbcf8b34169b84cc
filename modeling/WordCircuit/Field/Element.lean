import WordCircuit.Field.Order
import WordCircuit.Field.Residue

namespace WordCircuit

/-- An element of a field: a residue, or a floating-point number that counts as one. The
    latter has a number that tells its occurrence from others, or zero if that has not
    been given yet. -/
inductive Element where
  | exact (r : Residue)
  | inexact (order : Order) (value : Float) (serial : Nat)

/-- What can stand beside an element in an arithmetic operation. Everything that is
    neither an integer nor an element keeps only the name of its kind. -/
inductive Operand where
  | int (n : Int)
  | element (e : Element)
  | foreign (kind : String)

/-- The operand of an assignment entry that has no value yet. -/
def Operand.unset : Operand := .foreign "NoneType"

namespace Element

def order : Element → Order
  | .exact r => .exact r.modulus
  | .inexact order _ _ => order

/-- The number in canonical form that stands for the element. -/
def number : Element → Number
  | .exact r => .int r.value
  | .inexact _ x _ => .float x

/-- The element that stands for a number. -/
def ofNumber : Order → Number → Element
  | .exact p, .int n => .exact (.ofInt p n)
  | order, n => .inexact order (floatRemainder n.toFloat order.number.toFloat) 0

def zero (order : Order) : Element := ofNumber order (.int 0)

def one (order : Order) : Element := ofNumber order (.int 1)

def isZero : Element → Bool
  | .exact r => r.isZero
  | .inexact _ x _ => x == 0

def isOne : Element → Bool
  | .exact r => r.isOne
  | .inexact _ x _ => x == 1

/-- The number by which an operand acts on `e`. Elements of another order and foreign
    values are refused. -/
def coerce (e : Element) : Operand → Except Fault Number
  | .int n => .ok (.int n)
  | .element f =>
    if f.order.same e.order then .ok f.number
    else .error (.fieldMismatch e.order.number f.order.number)
  | .foreign kind => .error (.notAnOperand kind)

def add (e : Element) (x : Operand) : Except Fault Element :=
  (e.coerce x).map fun n => ofNumber e.order (e.number.add n)

def sub (e : Element) (x : Operand) : Except Fault Element :=
  (e.coerce x).map fun n => ofNumber e.order (e.number.sub n)

/-- The operand minus the element. -/
def subFrom (e : Element) (x : Operand) : Except Fault Element :=
  (e.coerce x).map fun n => ofNumber e.order (n.sub e.number)

def mul (e : Element) (x : Operand) : Except Fault Element :=
  (e.coerce x).map fun n => ofNumber e.order (e.number.mul n)

def neg (e : Element) : Element :=
  ofNumber e.order e.number.neg

/-- Equality of order and value. -/
def same : Element → Element → Bool
  | .exact r, .exact s => r == s
  | e, f => e.order.same f.order && e.number.same f.number

/-- Whether two elements are one occurrence of a floating-point number. -/
def identical : Element → Element → Bool
  | .inexact _ _ i, .inexact _ _ j => i != 0 && i == j
  | _, _ => false

/-- Equality as parts of something, where an occurrence equals itself even if its value
    is no number. -/
def alike (e f : Element) : Bool :=
  e.identical f || e.same f

/-- Whether the element stands for the integer. -/
def represents : Element → Int → Bool
  | .exact r, n => r.represents n
  | .inexact order x _, n => ((Number.int n).mod order.number).same (.float x)

def display (e : Element) : String :=
  s!"FieldElement({e.number.display} mod {e.order.display})"

end Element

/-- Whether one plus one is zero. An order that is not even equal to itself does not
    take part in a sum. -/
def Order.isCharacteristicTwo (order : Order) : Except Fault Bool :=
  ((Element.one order).add (.element (.one order))).map Element.isZero

end WordCircuit
