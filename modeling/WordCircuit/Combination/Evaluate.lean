import WordCircuit.Combination.Basic

namespace WordCircuit

/-- Values for the variables, by position. -/
abbrev Assignment := Array Operand

namespace Assignment

/-- The position of an index. A negative index counts from the end. -/
def position? (assignment : Assignment) (index : Int) : Option Nat :=
  if 0 ≤ index then
    if index < assignment.size then some index.toNat else none
  else
    if 0 ≤ index + assignment.size then some (index + assignment.size).toNat else none

def valueAt? (assignment : Assignment) (index : Int) : Option Operand :=
  (assignment.position? index).bind fun position => assignment[position]?

end Assignment

namespace Combination

/-- Adds the product of one term to a running total. -/
def addTerm (assignment : Assignment) (total : Element) (entry : Int × Element) :
    Except Fault Element := do
  match assignment.valueAt? entry.1 with
  | none => throw (.unassigned entry.1)
  | some value =>
    let product ← entry.2.mul value
    total.add (.element product)

/-- The value under an assignment. The terms are visited in the order in which
    they were collected, so the first of them that has no value is reported. -/
def evaluate (x : Combination) (assignment : Assignment) : Except Fault Element :=
  x.terms.entries.foldlM (addTerm assignment) x.constant

end Combination

end WordCircuit
