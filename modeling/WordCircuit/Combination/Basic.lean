import WordCircuit.Combination.Terms

namespace WordCircuit

/-- A constant plus a weighted sum of variables over a field. No coefficient is zero.
    Constant and coefficients carry orders of their own, so arithmetic with a coefficient
    of another order is refused where it happens. The serial number tells an occurrence
    of a combination from others; it is zero until it has been given. -/
structure Combination where
  order : Order
  constant : Element
  terms : Terms
  serial : Nat
  nonzero : ∀ entry ∈ terms.entries, entry.2.isZero = false

namespace Combination

/-- The combination with these parts, without the terms that are zero. -/
def make (order : Order) (constant : Element) (terms : Terms) : Combination where
  order := order
  constant := constant
  terms := terms.dropZeros
  serial := 0
  nonzero := by
    intro entry hmem
    simpa using (List.mem_filter.1 hmem).2

/-- The combination without variables that always has the value `e`. -/
def ofElement (e : Element) : Combination :=
  make e.order e .empty

def zero (order : Order) : Combination :=
  ofElement (.zero order)

def one (order : Order) : Combination :=
  ofElement (.one order)

/-- The single variable `index` with coefficient one. -/
def var (order : Order) (index : Int) : Combination :=
  make order (.zero order) (.single index (.one order))

/-- One more than the greatest index among the terms, and zero without terms. -/
def dim (x : Combination) : Int :=
  match x.terms.entries with
  | [] => 0
  | (index, _) :: rest => rest.foldl (fun greatest entry => max greatest entry.1) index + 1

def isConstant (x : Combination) : Bool :=
  x.terms.entries.isEmpty

/-- Equality of order, constant and coefficients, in whatever sequence the terms
    were collected. -/
def same (x y : Combination) : Bool :=
  x.order.same y.order && x.constant.same y.constant && x.terms.same y.terms

instance : BEq Combination := ⟨same⟩

/-- Whether two combinations are one occurrence. -/
def identical (x y : Combination) : Bool :=
  x.serial != 0 && x.serial == y.serial

def display (x : Combination) : String :=
  let terms := x.terms.sorted.map fun entry => s!"{entry.2.number.display}*x{entry.1}"
  let sum := " + ".intercalate (x.constant.number.display :: terms)
  s!"LinearCombination({sum})"

end Combination

end WordCircuit
