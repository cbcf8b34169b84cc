import WordCircuit.ConstraintSystem.Basic

namespace WordCircuit

/-- Sets the entry of an index, if the index has a position. -/
def Assignment.assign (assignment : Assignment) (index : Int) (value : Operand) : Assignment :=
  match assignment.position? index with
  | some position => assignment.setIfInBounds position value
  | none => assignment

/-- Whether the index has an entry that holds no value yet. -/
def Assignment.lacks (assignment : Assignment) (index : Int) : Bool :=
  match assignment.valueAt? index with
  | some (.foreign _) => true
  | _ => false

/-- The variable that a combination consists of, if it is a variable alone. -/
def Combination.variable? (x : Combination) : Option Int :=
  match x.terms.entries with
  | [(index, coefficient)] =>
    if x.constant.isZero && coefficient.isOne then some index else none
  | _ => none

namespace ConstraintSystem

/-- Gives the result of one constraint the value of the product, if the result is
    a variable that still lacks a value. -/
def solveStep (assignment : Assignment) (c : ProductConstraint) : Except Fault Assignment :=
  match c.result.variable? with
  | none => return assignment
  | some index =>
    if assignment.lacks index then do
      let a ← c.left.evaluate assignment
      let b ← c.right.evaluate assignment
      return assignment.assign index (.element (← a.mul (.element b)))
    else
      return assignment

/-- A forward pass: starts from values for some of the variables and computes the
    others from the constraints, each of them visited once and in order. -/
def solve (s : ConstraintSystem) (inputs : List (Int × Number)) : Except Fault Assignment :=
  let start := inputs.foldl
    (fun (assignment : Assignment) input =>
      assignment.assign input.1 (.element (.ofNumber s.order input.2)))
    (Array.replicate s.numVars .unset)
  s.constraints.foldlM solveStep start

end ConstraintSystem

end WordCircuit
