import WordCircuit.Datum.Equality
import WordCircuit.Proofs.Field.Residues

namespace WordCircuit

/-- The numbers that are exact: a truth value, which counts as zero or one, an integer of any
    size, or a residue to any modulus. -/
inductive Scalar where
  | truth (b : Bool)
  | integer (n : Int)
  | residue (r : Residue)

namespace Scalar

/-- The value that callers hand in for the number. -/
def datum : Scalar → Datum
  | truth b => .bool b
  | integer n => .int n
  | residue r => .element (.exact r)

/-- The integer that the number is, which for a residue is its canonical form. -/
def value : Scalar → Int
  | truth b => if b then 1 else 0
  | integer n => n
  | residue r => r.value

/-- The modulus of a residue. The other numbers have none. -/
def modulus? : Scalar → Option Modulus
  | residue r => some r.modulus
  | _ => none

/-- The residue of three to the modulus seven. -/
def threeBySeven : Scalar :=
  residue ⟨.seven, 3, by decide⟩

/-- The code under which a set files the number. -/
def code : Scalar → Int
  | residue r => Datum.filingCodeOfElement (.exact r)
  | x => Datum.filingCode x.value

theorem code_eq (x : Scalar) : x.code = Datum.filingCode x.value := by
  cases x <;> rfl

/-- Residues are alike if they are equal, and an integer is embedded into the field of the
    residue that it is compared with. -/
def Alike (x y : Scalar) : Prop :=
  match x.modulus?, y.modulus? with
  | none, none => x.value = y.value
  | some p, none => y.value % p.size = x.value
  | none, some q => x.value % q.size = y.value
  | some p, some q => p = q ∧ x.value = y.value

theorem represents_iff (r : Residue) (n : Int) :
    r.represents n = true ↔ n % r.modulus.size = r.value := by
  have hpos := r.modulus.size_pos
  have hnonneg := Int.emod_nonneg n (show (r.modulus.size : Int) ≠ 0 by omega)
  obtain ⟨p, value, hlt⟩ := r
  simp only [Residue.represents, Residue.ofInt, beq_iff_eq, Residue.mk.injEq, true_and] at hnonneg ⊢
  omega

theorem same_iff_alike (x y : Scalar) : x.datum.same y.datum = true ↔ x.Alike y := by
  cases x with
  | truth a =>
    cases y with
    | truth b => simp [datum, Datum.same, Datum.equalsInteger, Alike, modulus?, value]
    | integer n => simp [datum, Datum.same, Datum.equalsInteger, Alike, modulus?, value]
    | residue s => exact represents_iff s _
  | integer m =>
    cases y with
    | truth b => simp [datum, Datum.same, Datum.equalsInteger, Alike, modulus?, value]
    | integer n => simp [datum, Datum.same, Datum.equalsInteger, Alike, modulus?, value]
    | residue s => exact represents_iff s m
  | residue r =>
    cases y with
    | truth b => exact represents_iff r _
    | integer n => exact represents_iff r n
    | residue s =>
      obtain ⟨p, m, hm⟩ := r
      obtain ⟨q, n, hn⟩ := s
      simp [datum, Datum.same, Element.same, Alike, modulus?, value]

theorem alike_refl (x : Scalar) : x.Alike x := by
  unfold Alike
  cases x.modulus? <;> simp

theorem Alike.symm {x y : Scalar} (h : x.Alike y) : y.Alike x := by
  unfold Alike at *
  cases hx : x.modulus? <;> cases hy : y.modulus? <;> simp only [hx, hy] at * <;> grind

end Scalar

end WordCircuit
