import WordCircuit.Combination.Basic

namespace WordCircuit.Combination

/-- Passes if both combinations are over the same order. -/
def checkOrder (x y : Combination) : Except Fault Unit :=
  if y.order.same x.order then .ok ()
  else .error (.fieldMismatch x.order.number y.order.number)

/-- The sum: the terms of `x` in their places, then those that only `y` has. -/
def add (x y : Combination) : Except Fault Combination := do
  x.checkOrder y
  let terms ← x.terms.mergeM (fun k l => k.add (.element l)) id y.terms
  let constant ← x.constant.add (.element y.constant)
  return make x.order constant terms

/-- The difference: the terms of `x` in their places, then the negatives of those
    that only `y` has. -/
def sub (x y : Combination) : Except Fault Combination := do
  x.checkOrder y
  let terms ← x.terms.mergeM (fun k l => k.sub (.element l)) Element.neg y.terms
  let constant ← x.constant.sub (.element y.constant)
  return make x.order constant terms

def neg (x : Combination) : Combination :=
  make x.order x.constant.neg (x.terms.map Element.neg)

/-- The multiple by a scalar, which may be an integer or an element of the same
    order. -/
def scale (x : Combination) (scalar : Operand) : Except Fault Combination := do
  if let .element e := scalar then
    if !e.order.same x.order then
      throw (.fieldMismatch x.order.number e.order.number)
  let constant ← x.constant.mul scalar
  let terms ← x.terms.mapM fun coefficient => coefficient.mul scalar
  return make x.order constant terms

end WordCircuit.Combination
