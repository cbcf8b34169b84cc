import WordCircuit.Datum.Text

namespace WordCircuit

/-- How many terms an exclusive or may keep. -/
inductive TermBound where
  | unlimited
  | atMost (greatest : Nat)
  /-- A bound that no number of terms meets. -/
  | unmeetable
deriving DecidableEq

namespace TermBound

/-- Whether so many terms may be kept. -/
def allows : TermBound → Nat → Bool
  | .unlimited, _ => true
  | .atMost greatest, count => decide (count ≤ greatest)
  | .unmeetable, _ => false

/-- The bound that a value stands for: nothing is no bound, and a number must not be less
    than one. It bounds a count as much as the integer below it does; infinity does not
    bound it, and what cannot be compared with a count does not allow it. -/
def ofDatum (d : Datum) : Except Fault TermBound :=
  match d, d.number? with
  | .null, _ => .ok .unlimited
  | _, some (.int m) =>
    if 1 ≤ m then .ok (.atMost m.toNat) else .error (.boundTooSmall d.display)
  | _, some (.float x) =>
    if x < 1 then .error (.boundTooSmall d.display)
    else if x.isNaN then .ok .unmeetable
    else .ok ((integerOfFloat x.floor).elim .unlimited fun m => .atMost m.toNat)
  | _, none => .error (.boundTooSmall d.display)

end TermBound

end WordCircuit
