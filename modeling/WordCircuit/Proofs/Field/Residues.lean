import Mathlib.Data.ZMod.Basic
import WordCircuit.Field.Element

namespace WordCircuit

instance Modulus.instNeZeroSize (p : Modulus) : NeZero p.size :=
  ⟨p.size_pos.ne'⟩

instance Modulus.instFactOneLtSize (p : Modulus) : Fact (1 < p.size) :=
  ⟨p.two_le⟩

/-- The modulus of the field with seven elements. -/
def Modulus.seven : Modulus :=
  ⟨7, by decide⟩

namespace Element

/-- The element that stands for a residue class, in canonical form. -/
def ofClass (p : Modulus) (z : ZMod p.size) : Element :=
  .exact ⟨p, z.val, z.val_lt⟩

/-- The residue class that an element stands for. -/
def residue (p : Modulus) : Element → ZMod p.size
  | .exact r => r.value
  | .inexact _ _ _ => 0

/-- The element is one of the residues modulo `p`. -/
def Over (p : Modulus) (e : Element) : Prop :=
  ∃ z, e = ofClass p z

theorem over_ofClass (p : Modulus) (z : ZMod p.size) : (ofClass p z).Over p :=
  ⟨z, rfl⟩

@[simp] theorem residue_ofClass (p : Modulus) (z : ZMod p.size) : (ofClass p z).residue p = z :=
  ZMod.natCast_zmod_val z

theorem Over.eq_ofClass {p : Modulus} {e : Element} (hover : e.Over p) :
    e = ofClass p (e.residue p) := by
  obtain ⟨z, rfl⟩ := hover
  rw [residue_ofClass]

theorem ofClass_inj {p : Modulus} {a b : ZMod p.size} : ofClass p a = ofClass p b ↔ a = b := by
  constructor
  · intro h
    simpa using congrArg (residue p) h
  · exact congrArg (ofClass p)

@[simp] theorem order_ofClass (p : Modulus) (z : ZMod p.size) : (ofClass p z).order = .exact p :=
  rfl

@[simp] theorem number_ofClass (p : Modulus) (z : ZMod p.size) :
    (ofClass p z).number = .int z.val :=
  rfl

/-- Embedding an integer reduces it, so that the element stands for the class
    of the integer whatever its sign and size are. -/
theorem ofNumber_int (p : Modulus) (n : Int) :
    ofNumber (.exact p) (.int n) = ofClass p n := by
  have hval : (n % p.size).toNat = (n : ZMod p.size).val := by
    rw [← ZMod.val_intCast n, Int.toNat_natCast]
  simp only [ofNumber, ofClass, Residue.ofInt, hval]

@[simp] theorem zero_exact (p : Modulus) : zero (.exact p) = ofClass p 0 := by
  rw [zero, ofNumber_int, Int.cast_zero]

@[simp] theorem one_exact (p : Modulus) : one (.exact p) = ofClass p 1 := by
  rw [one, ofNumber_int, Int.cast_one]

@[simp] theorem coerce_element (p : Modulus) (a b : ZMod p.size) :
    (ofClass p a).coerce (.element (ofClass p b)) = .ok (.int b.val) := by
  simp [coerce, Order.same]

/-- On residues of one modulus the arithmetic of elements is that of classes. -/
theorem add_ofClass (p : Modulus) (a b : ZMod p.size) :
    (ofClass p a).add (.element (ofClass p b)) = .ok (ofClass p (a + b)) := by
  simp [add, Except.map, Number.add, Number.combine, ofNumber_int]

theorem sub_ofClass (p : Modulus) (a b : ZMod p.size) :
    (ofClass p a).sub (.element (ofClass p b)) = .ok (ofClass p (a - b)) := by
  simp [sub, Except.map, Number.sub, Number.combine, ofNumber_int]

theorem mul_ofClass (p : Modulus) (a b : ZMod p.size) :
    (ofClass p a).mul (.element (ofClass p b)) = .ok (ofClass p (a * b)) := by
  simp [mul, Except.map, Number.mul, Number.combine, ofNumber_int]

theorem mul_int_ofClass (p : Modulus) (a : ZMod p.size) (n : Int) :
    (ofClass p a).mul (.int n) = .ok (ofClass p (a * n)) := by
  simp [mul, coerce, Except.map, Number.mul, Number.combine, ofNumber_int]

theorem neg_ofClass (p : Modulus) (a : ZMod p.size) :
    (ofClass p a).neg = ofClass p (-a) := by
  simp [neg, Number.neg, ofNumber_int]

theorem isZero_ofClass (p : Modulus) (a : ZMod p.size) :
    (ofClass p a).isZero = true ↔ a = 0 := by
  simp [ofClass, isZero, Residue.isZero]

theorem same_ofClass (p : Modulus) (a b : ZMod p.size) :
    (ofClass p a).same (ofClass p b) = true ↔ a = b := by
  rw [← ofClass_inj]
  simp [ofClass, same]

/-- The element that a truth value counts as: zero or one. -/
def ofBool (p : Modulus) (b : Bool) : Element :=
  ofClass p (if b then 1 else 0)

end Element

/-- The operand is an integer or an element of the field, and stands for the residue class. -/
inductive Operand.StandsFor (p : Modulus) : Operand → ZMod p.size → Prop where
  | int (n : Int) : StandsFor p (.int n) n
  | element (z : ZMod p.size) : StandsFor p (.element (.ofClass p z)) z

theorem Operand.StandsFor.mul_ofClass {p : Modulus} {scalar : Operand} {factor : ZMod p.size}
    (h : scalar.StandsFor p factor) (a : ZMod p.size) :
    (Element.ofClass p a).mul scalar = .ok (.ofClass p (a * factor)) := by
  cases h with
  | int n => exact Element.mul_int_ofClass p a n
  | element => exact Element.mul_ofClass p a _

end WordCircuit
