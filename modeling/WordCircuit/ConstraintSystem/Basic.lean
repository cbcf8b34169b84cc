import WordCircuit.Backend
import WordCircuit.Combination.Arithmetic
import WordCircuit.ConstraintSystem.TermBound

namespace WordCircuit

/-- A rank-1 constraint system under construction. Variables are numbered as they
    are declared and never freed, and constraints are only ever appended. -/
structure ConstraintSystem where
  modulus : Modulus
  maxTerms : TermBound
  numVars : Nat
  constraints : Array ProductConstraint
  journal : Journal

namespace ConstraintSystem

/-- The system without variables and constraints. -/
def empty (p : Modulus) (maxTerms : TermBound) : ConstraintSystem :=
  ⟨p, maxTerms, 0, #[], .empty⟩

/-- The empty system over an order, with the bound that a value stands for. Sums are tried
    out on the order first, because an order that differs from itself has none. -/
def ofOrder (order : Order) (maxTerms : Datum) : Except Fault ConstraintSystem := do
  let bound ← TermBound.ofDatum maxTerms
  let _ ← order.isCharacteristicTwo
  return empty (← order.modulus) bound

def note (notice : Notice) : Action ConstraintSystem Unit :=
  modify fun s => { s with journal := s.journal.note notice }

/-- Adds a variable and gives its index. -/
def declare : Action ConstraintSystem Nat :=
  modifyGet fun s =>
    let declared := s.numVars + 1
    (s.numVars,
      { s with
        numVars := declared
        journal := s.journal.noteCount declared (.variables declared) })

/-- The order of the system's field. -/
def order (s : ConstraintSystem) : Order := .exact s.modulus

/-- Passes if the combination is over the field of the system. -/
def checkField (s : ConstraintSystem) (x : Combination) : Except Fault Unit :=
  if x.order.same s.order then .ok ()
  else .error (.constraintField x.order.number s.order.number)

/-- Passes if the constraint is over the field of the system and mentions no
    variable beyond the declared ones. -/
def check (s : ConstraintSystem) (c : ProductConstraint) : Except Fault Unit := do
  s.checkField c.left
  s.checkField c.right
  s.checkField c.result
  if (s.numVars : Int) < c.dim then
    throw (.undeclared (c.dim - 1) s.numVars)

/-- The system with one more constraint. -/
def push (s : ConstraintSystem) (c : ProductConstraint) : ConstraintSystem :=
  let posed := s.constraints.size + 1
  { s with
    constraints := s.constraints.push c
    journal := s.journal.noteCount posed (.constraints posed s.numVars) }

/-- Appends a constraint, once it passes the check. -/
def satisfy (c : ProductConstraint) : Action ConstraintSystem Unit := do
  (← get).check c
  modify fun s => s.push c

/-- A variable of its own, as a combination. -/
def fresh : Action ConstraintSystem Combination := do
  let index ← declare
  return .var (← get).order index

/-- Whether all constraints hold. Those after the first that fails are not
    looked at. -/
def isSatisfied (s : ConstraintSystem) (assignment : Assignment) : Except Fault Bool :=
  s.constraints.toList.allM fun c => c.holds assignment

/-- The positions of the constraints that do not hold, in increasing order. -/
def unsatisfied (s : ConstraintSystem) (assignment : Assignment) : Except Fault (List Nat) := do
  let failing ← s.constraints.toList.zipIdx.filterM fun entry =>
    return !(← entry.1.holds assignment)
  return failing.map Prod.snd

end ConstraintSystem

end WordCircuit
