import WordCircuit.Combination.Evaluate

namespace WordCircuit

/-- The demand that the product of two combinations equals a third. -/
structure ProductConstraint where
  left : Combination
  right : Combination
  result : Combination

namespace ProductConstraint

/-- The greatest dimension among the three combinations. -/
def dim (c : ProductConstraint) : Int :=
  max (max c.left.dim c.right.dim) c.result.dim

/-- Whether the demand is met. Both factors are evaluated and multiplied before
    the result is looked at. -/
def holds (c : ProductConstraint) (assignment : Assignment) : Except Fault Bool := do
  let a ← c.left.evaluate assignment
  let b ← c.right.evaluate assignment
  let product ← a.mul (.element b)
  let result ← c.result.evaluate assignment
  return product.same result

end ProductConstraint

end WordCircuit
