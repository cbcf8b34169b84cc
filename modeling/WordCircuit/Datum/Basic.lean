import WordCircuit.Capability
import WordCircuit.Constraint
import WordCircuit.Field.PrimeField

namespace WordCircuit

/-- A value of any kind, as callers hand it in and get it back. Backends that
    compute on values directly use it as their handle; elsewhere it is what a
    constant, an amount or a bit may turn out to be. -/
inductive Datum where
  | null
  | bool (b : Bool)
  | int (n : Int)
  /-- A floating-point number, with the text that denotes it and the number that tells
      its occurrence from others. -/
  | float (value : Float) (shown : String) (serial : Nat)
  | text (s : String)
  | bytes (octets : List UInt8)
  | list (items : List Datum)
  | type (ty : ValueType)
  /-- What is offered on each of some types, none of which appears twice. -/
  | table (entries : List (ValueType × Capability))
  /-- A field, with the label that it was given and the number that tells its occurrence
      from others. -/
  | field (order : Order) (label : Datum) (serial : Nat)
  | element (e : Element)
  | var (index : Int)
  | combination (x : Combination)
  /-- A product constraint. Its parts can be values of any kind, although only
      combinations make sense there. -/
  | constraint (left right result : Datum)
  /-- A chaining state of SHA-256, as its words. -/
  | chain (words : List Datum)
  /-- A backend, by the name of its kind and the number that tells it from others, with
      the modulus that it computes over, if there is one. -/
  | backend (name : String) (serial : Nat) (modulus : Option Modulus)

namespace Datum

instance : Inhabited Datum := ⟨.null⟩

/-- The name of the kind of a value. -/
def kind : Datum → String
  | .null => "NoneType"
  | .bool _ => "bool"
  | .int _ => "int"
  | .float _ _ _ => "float"
  | .text _ => "str"
  | .bytes _ => "bytes"
  | .list _ => "list"
  | .type _ => "ValueType"
  | .table _ => "dict"
  | .field _ _ _ => "PrimeField"
  | .element _ => "FieldElement"
  | .var _ => "Variable"
  | .combination _ => "LinearCombination"
  | .constraint _ _ _ => "ProductConstraint"
  | .chain _ => "Sha256"
  | .backend name _ _ => name

/-- The integer that a value is. A truth value is the integer zero or one. -/
def integer? : Datum → Option Int
  | .bool b => some (if b then 1 else 0)
  | .int n => some n
  | _ => none

/-- The integer that a value is, where a truth value is none. -/
def plainInteger? : Datum → Option Int
  | .int n => some n
  | _ => none

/-- The number that a value is. -/
def number? : Datum → Option Number
  | .float x _ _ => some (.float x)
  | d => d.integer?.map .int

/-- The value that a number is. -/
def ofNumber : Number → Datum
  | .int n => .int n
  | .float x => .float x (floatText x) 0

/-- The number that stands for an element, as the same occurrence every time. -/
def ofElement : Element → Datum
  | .exact r => .int r.value
  | .inexact _ x serial => .float x (floatText x) serial

/-- How the value acts on an element of a field. -/
def operand : Datum → Operand
  | .element e => .element e
  | d =>
    match d.integer? with
    | some n => .int n
    | none => .foreign d.kind

/-- Whether the value counts as true: zero and whatever is empty do not. -/
def truth : Datum → Bool
  | .null => false
  | .bool b => b
  | .int n => n != 0
  | .float x _ _ => x != 0
  | .text s => !s.isEmpty
  | .bytes octets => !octets.isEmpty
  | .list items => !items.isEmpty
  | .table entries => !entries.isEmpty
  | _ => true

/-- The elements of a value that is a sequence of values: those of a list, the
    characters of a text, the numbers of octets and the types that a table mentions. -/
def elements : Datum → List Datum
  | .list items => items
  | .text s => s.toList.map fun c => .text c.toString
  | .bytes octets => octets.map fun octet => .int octet.toNat
  | .table entries => entries.map fun entry => .type entry.1
  | _ => []

/-- One more than the greatest index of a variable in a combination, or in the parts of
    a constraint. -/
def dim : Datum → Int
  | .combination x => x.dim
  | .constraint a b c => max (max a.dim b.dim) c.dim
  | _ => 0

def ofField (f : PrimeField) : Datum :=
  .field (.exact f.modulus) (.text f.label) 0

def ofConstraint (c : ProductConstraint) : Datum :=
  .constraint (.combination c.left) (.combination c.right) (.combination c.result)

/-- The combination that a value counts as. An element is a constant, and whatever else
    belongs to a field counts as zero over it; all the rest is zero over the field
    with two elements. -/
def asCombination : Datum → Combination
  | .combination x => x
  | .element e => .ofElement e
  | .backend _ _ (some p) => .zero (.exact p)
  | _ => .zero (.exact PrimeField.gf2.modulus)

/-- The constraint that a value counts as. -/
def asConstraint : Datum → ProductConstraint
  | .constraint a b c => ⟨a.asCombination, b.asCombination, c.asCombination⟩
  | d => ⟨d.asCombination, d.asCombination, d.asCombination⟩

end Datum

end WordCircuit
