import WordCircuit.Datum.Basic

namespace WordCircuit

namespace Datum

/-- Whether an integer equals a value that is not a list: as a number, or, for
    an element of a field, modulo the order. -/
def equalsInteger (n : Int) : Datum → Bool
  | .bool b => n == if b then 1 else 0
  | .int m => n == m
  | .float x _ _ => integerOfFloat x == some n
  | .element e => e.represents n
  | _ => false

/-- Whether two tables have the same entries, in whatever order. -/
def sameEntries (entries others : List (ValueType × Capability)) : Bool :=
  entries.length == others.length && entries.all fun entry => others.lookup entry.1 == some entry.2

/-- Whether both values are the same occurrence of a number, or of something that is made
    of numbers. Only this makes what is not equal to itself equal to itself as a part of
    something. -/
def sameOccurrence : Datum → Datum → Bool
  | .float _ _ i, .float _ _ j | .field _ _ i, .field _ _ j => i != 0 && i == j
  | .element e, .element f => e.identical f
  | .combination x, .combination y => x.identical y
  | _, _ => false

mutual

/-- Equality across kinds: numbers by their value, an element and an integer modulo
    the order, fields by their order, composite values part by part. Values of
    unrelated kinds differ. -/
def same : Datum → Datum → Bool
  | .bool b, d => equalsInteger (if b then 1 else 0) d
  | .int n, d => equalsInteger n d
  | .float x _ _, .float y _ _ => x == y
  | .float x _ _, d =>
    match integerOfFloat x, d.integer? with
    | some n, some m => n == m
    | _, _ => false
  | .element e, .element f => e.same f
  | .element e, d =>
    match d.integer? with
    | some n => e.represents n
    | none => false
  | .null, .null => true
  | .text s, .text t => s == t
  | .bytes s, .bytes t => s == t
  | .list items, .list others => sameAll items others
  | .type ty, .type other => ty == other
  | .table entries, .table others => sameEntries entries others
  | .field order _ _, .field other _ _ => order.same other
  | .var i, .var j => i == j
  | .combination x, .combination y => x == y
  | .constraint a b c, .constraint a' b' c' =>
    (sameOccurrence a a' || same a a') && (sameOccurrence b b' || same b b') &&
      (sameOccurrence c c' || same c c')
  | .chain words, .chain others => sameAll words others
  | .backend _ i _, .backend _ j _ => i == j
  | _, _ => false

def sameAll : List Datum → List Datum → Bool
  | [], [] => true
  | item :: rest, other :: others =>
    (sameOccurrence item other || same item other) && sameAll rest others
  | _, _ => false

end

instance : BEq Datum := ⟨same⟩

/-- The code under which a set files an integer: its remainder modulo 2^61 - 1, with
    the integer's sign. The code -1 is reserved, and -2 stands in for it. -/
def filingCode (n : Int) : Int :=
  let code := n.tmod ((1 <<< 61) - 1 : Nat)
  if code = -1 then -2 else code

/-- The code of a floating-point number, which is that of an equal integer. Modulo
    2^61 - 1 the powers of two recur after 61 of them. Infinity has a code of its own. -/
def filingCodeOfFloat (x : Float) : Int :=
  match Magnitude.ofFloat? x with
  | some size =>
    let n : Int := size.significand <<< (size.exponent % 61).toNat
    filingCode (if hasSign x then -n else n)
  | none => if hasSign x then -314159 else 314159

def filingCodeOfElement : Element → Int
  | .exact r => filingCode r.value
  | .inexact _ x _ => filingCodeOfFloat x

mutual

/-- Whether a set files two equal values under the same code. Only an integer and an
    element of a field can differ in this, because an element is filed as its canonical
    value, and with them the values that have such a pair in the same place. -/
def filedAlike : Datum → Datum → Bool
  | .element e, d | d, .element e =>
    match d.integer? with
    | some n => filingCode n == filingCodeOfElement e
    | none => true
  | .list items, .list others => allFiledAlike items others
  | .chain words, .chain others => allFiledAlike words others
  | .constraint a b c, .constraint a' b' c' =>
    filedAlike a a' && filedAlike b b' && filedAlike c c'
  | _, _ => true

def allFiledAlike : List Datum → List Datum → Bool
  | item :: rest, other :: others => filedAlike item other && allFiledAlike rest others
  | _, _ => true

end

/-- Whether a set that holds one of the two values has no room for the other: they
    are equal and filed under the same code. -/
def coincide (a b : Datum) : Bool :=
  sameOccurrence a b || filedAlike a b && same a b

/-- The members of the set that a list of values makes, in order: a value is left
    out if it coincides with an earlier member. -/
def distinct (values : List Datum) : List Datum :=
  values.foldl (fun members value =>
    if members.any fun member => coincide member value then members else members ++ [value]) []

end Datum

end WordCircuit
