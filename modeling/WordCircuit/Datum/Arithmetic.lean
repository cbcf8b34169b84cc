import WordCircuit.Combination.Arithmetic
import WordCircuit.Datum.Text

namespace WordCircuit.Datum

/-- The order that a value stands for: a number of at least two, or one that cannot be
    compared with two. A refusal shows the value as it was given. -/
def order : Datum → Except Fault Order
  | .float x shown _ =>
    if x < 2 then .error (.modulusTooSmall shown) else .ok (.inexact x)
  | d =>
    match d.integer? with
    | some n =>
      if h : 2 ≤ n.toNat then .ok (.exact ⟨n.toNat, h⟩) else .error (.modulusTooSmall d.display)
    | none => .error (.modulusTooSmall d.display)

/-- Why a combination is not added to something that is none but belongs to a field. -/
def misfit (x : Combination) (order : Order) : Fault :=
  if order.same x.order then .notAnOperand "LinearCombination"
  else .fieldMismatch x.order.number order.number

/-- Combines two numbers, or refuses the second operand. -/
def onNumbers (f : Number → Number → Number) (a b : Datum) : Except Fault Datum :=
  match a.number?, b.number? with
  | some m, some n => .ok (ofNumber (f m n))
  | _, _ => .error (.notAnOperand b.kind)

/-- So many copies of a sequence, one after the other, and none for a count below zero. -/
def copies {α : Type} (count : Int) (items : List α) : List α :=
  if items.isEmpty then [] else (List.replicate count.toNat items).flatten

/-- A value that is a sequence, so many times over. -/
def repeated? (count : Int) : Datum → Option Datum
  | .text s => some (.text (String.ofList (copies count s.toList)))
  | .bytes octets => some (.bytes (copies count octets))
  | .list items => some (.list (copies count items))
  | _ => none

/-- A sequence repeated by an integer on either side of it, if there are these two. -/
def multiple? (a b : Datum) : Option Datum :=
  match a.integer?, b.integer? with
  | some count, none => b.repeated? count
  | none, some count => a.repeated? count
  | _, _ => none

/-- The sum. An element on either side takes integers and elements and refuses the
    rest, the one on the left first; combinations add to each other, and sequences of
    one kind are joined. -/
def add : Datum → Datum → Except Fault Datum
  | .element e, b => (e.add b.operand).map .element
  | .combination x, .combination y => (x.add y).map .combination
  | .combination x, .element e => .error (misfit x e.order)
  | .combination x, .backend _ _ (some p) => .error (misfit x (.exact p))
  | a, .element e => (e.add a.operand).map .element
  | .text s, .text t => .ok (.text (s ++ t))
  | .bytes octets, .bytes others => .ok (.bytes (octets ++ others))
  | .list items, .list others => .ok (.list (items ++ others))
  | a, b => onNumbers .add a b

/-- The difference, under the rules of the sum, but not of sequences. -/
def sub : Datum → Datum → Except Fault Datum
  | .element e, b => (e.sub b.operand).map .element
  | .combination x, .combination y => (x.sub y).map .combination
  | .combination x, .element e => .error (misfit x e.order)
  | .combination x, .backend _ _ (some p) => .error (misfit x (.exact p))
  | a, .element e => (e.subFrom a.operand).map .element
  | a, b => onNumbers .sub a b

/-- The product. An element on the left is asked first; otherwise a combination on
    either side is scaled by the other operand. A sequence is repeated. -/
def mul : Datum → Datum → Except Fault Datum
  | .element e, b => (e.mul b.operand).map .element
  | .combination x, b => (x.scale b.operand).map .combination
  | a, .combination y => (y.scale a.operand).map .combination
  | a, .element e => (e.mul a.operand).map .element
  | a, b =>
    match multiple? a b with
    | some d => .ok d
    | none => onNumbers .mul a b

def neg : Datum → Except Fault Datum
  | .element e => .ok (.element e.neg)
  | .combination x => .ok (.combination x.neg)
  | a =>
    match a.number? with
    | some n => .ok (ofNumber n.neg)
    | none => .error (.notAnOperand a.kind)

end WordCircuit.Datum
