import WordCircuit.Proofs.Combination.TermCount
import WordCircuit.Proofs.ConstraintSystem.Growth

namespace WordCircuit.ConstraintSystem

open WordCircuit.Frame (Keeps)

/-- The number of terms that an operand of a constraint may have where handles have at most `m`.
    An exclusive or sums two handles up, and the variable of their product comes in addition
    unless one plus one is zero. -/
def operandBound (p : Modulus) (m : Nat) : Nat :=
  if p.isCharacteristicTwo then 2 * m else 2 * m + 1

/-- The system compacts what has more than `m` terms, and no operand of its constraints exceeds
    the bound. -/
structure Slim (p : Modulus) (m : Nat) (s : ConstraintSystem) : Prop where
  modulus_eq : s.modulus = p
  maxTerms_eq : s.maxTerms = .atMost m
  operands : ∀ c ∈ s.constraints, ∀ x ∈ [c.left, c.right, c.result], x.terms.size ≤ operandBound p m

/-- Slim systems, which may become any other slim system. -/
abbrev slimness (p : Modulus) (m : Nat) : Frame ConstraintSystem where
  World := { s : ConstraintSystem // s.Slim p m }
  state := Subtype.val
  Grows _ _ := True
  grows_refl _ := trivial
  grows_trans _ _ := trivial

/-- The combination has no more terms than a handle may have. -/
abbrev Fits (p : Modulus) (m : Nat) (_ : (slimness p m).World) (x : Combination) : Prop :=
  x.terms.size ≤ m

namespace Slim

variable {p : Modulus} {m : Nat}

theorem empty (p : Modulus) (m : Nat) : (ConstraintSystem.empty p (.atMost m)).Slim p m := by
  constructor
  · rfl
  · rfl
  · intro c hc
    simp [ConstraintSystem.empty] at hc

theorem next {s : ConstraintSystem} (h : s.Slim p m) : s.next.Slim p m :=
  ⟨h.modulus_eq, h.maxTerms_eq, h.operands⟩

theorem push {s : ConstraintSystem} (h : s.Slim p m) {c : ProductConstraint}
    (hc : ∀ x ∈ [c.left, c.right, c.result], x.terms.size ≤ operandBound p m) :
    (s.push c).Slim p m := by
  constructor
  · exact h.modulus_eq
  · exact h.maxTerms_eq
  · intro d hd
    rw [push_constraints, Array.mem_push] at hd
    obtain hd | rfl := hd
    · exact h.operands d hd
    · exact hc

variable {w : (slimness p m).World} {x y : Combination}

theorem keeps_fresh : (slimness p m).Keeps w fresh fun _ v => v.terms.size ≤ 1 := by
  refine ⟨⟨w.val.next, w.property.next⟩, rfl, trivial, ?_⟩
  intro v hv
  obtain rfl := Except.ok.inj hv
  exact Combination.size_var_le _ _

theorem keeps_one : (slimness p m).Keeps w one fun _ x => x.terms.size = 0 :=
  .get (.pure rfl)

theorem keeps_satisfy {c : ProductConstraint}
    (hc : ∀ x ∈ [c.left, c.right, c.result], x.terms.size ≤ operandBound p m) :
    (slimness p m).Keeps w (satisfy c) fun _ _ => True := by
  refine .get (.after_check fun _ _ => ?_)
  exact ⟨⟨w.val.push c, w.property.push hc⟩, rfl, trivial, fun _ _ => trivial⟩

theorem keeps_constant (table : Table) (ty : ValueType) (d : Datum) :
    (slimness p m).Keeps w (constant table ty d) (Fits p m) := by
  refine .after_check fun _ _ => .after_check fun canonical _ => .get (.pure ?_)
  exact (Combination.size_ofElement _).trans_le (Nat.zero_le m)

theorem keeps_not (table : Table) (ty : ValueType) (hx : x.terms.size ≤ m) :
    (slimness p m).Keeps w (not table ty x) (Fits p m) := by
  refine .after_check fun _ _ => .get (.after_check fun _ _ => ?_)
  refine keeps_one.bind fun w₁ one _ hone => .lift fun z hz => ?_
  have hsize := Combination.size_sub_le hz
  omega

section Gates

variable (hm : 1 ≤ m)

include hm

theorem le_operandBound {count : Nat} (hcount : count ≤ m) : count ≤ operandBound p m := by
  rw [operandBound]
  split <;> omega

/-- A new variable that a constraint of two operands determines has one term. -/
theorem keeps_determined (hx : x.terms.size ≤ operandBound p m) (hy : y.terms.size ≤ operandBound p m)
    {v : Combination} (hv : v.terms.size ≤ 1) :
    (slimness p m).Keeps w (do satisfy ⟨x, y, v⟩; return v) fun _ v => v.terms.size ≤ 1 := by
  have hoperands : ∀ z ∈ [x, y, v], z.terms.size ≤ operandBound p m := by
    simp [hx, hy, le_operandBound hm (hv.trans hm)]
  exact (keeps_satisfy hoperands).bind fun _ _ _ _ => .pure hv

theorem keeps_allocBool : (slimness p m).Keeps w allocBool fun _ v => v.terms.size ≤ 1 := by
  refine keeps_fresh.bind fun w₁ v _ hv => ?_
  have hoperand : v.terms.size ≤ operandBound p m := le_operandBound hm (hv.trans hm)
  exact keeps_determined hm hoperand hoperand hv

/-- What is not too large for an operand is compacted to what is not too large for a handle. -/
theorem keeps_compact (hx : x.terms.size ≤ operandBound p m) :
    (slimness p m).Keeps w (compact x) (Fits p m) := by
  refine .get ?_
  rw [w.property.maxTerms_eq]
  by_cases hallowed : x.terms.size ≤ m
  · simp only [TermBound.allows, hallowed, decide_true, if_true]
    exact .pure hallowed
  · simp only [TermBound.allows, hallowed, decide_false, Bool.false_eq_true, if_false]
    refine keeps_fresh.bind fun w₁ v _ hv => keeps_one.bind fun w₂ one _ hone => ?_
    exact (keeps_determined hm hx (by omega) hv).imp fun _ _ _ hv => hv.trans hm

theorem keeps_and (table : Table) (ty : ValueType) (hx : x.terms.size ≤ m) (hy : y.terms.size ≤ m) :
    (slimness p m).Keeps w (and table ty x y) fun _ v => v.terms.size ≤ 1 := by
  refine .after_check fun _ _ => .get (.after_check fun _ _ => .after_check fun _ _ => ?_)
  refine keeps_fresh.bind fun w₁ v _ hv => ?_
  exact keeps_determined hm (le_operandBound hm hx) (le_operandBound hm hy) hv

/-- Before it is compacted, an exclusive or has the terms of both its arguments, and where one
    plus one is not zero also that of the variable of their product. -/
theorem keeps_xor (table : Table) (ty : ValueType) (hx : x.terms.size ≤ m) (hy : y.terms.size ≤ m) :
    (slimness p m).Keeps w (xor table ty x y) (Fits p m) := by
  refine .after_check fun _ _ => .get (.after_check fun _ _ => .after_check fun _ _ => ?_)
  rw [w.property.modulus_eq]
  split
  · rename_i hchar
    refine .after_check fun sum hsum => keeps_compact hm ?_
    have hsize := Combination.size_add_le hsum
    rw [operandBound, if_pos hchar]
    omega
  · rename_i hchar
    refine (keeps_and hm table ty hx hy).bind fun w₁ both _ hboth => ?_
    refine .after_check fun sum hsum => .after_check fun twice htwice => ?_
    refine .after_check fun difference hdifference => keeps_compact hm ?_
    have hsumSize := Combination.size_add_le hsum
    have htwiceSize := Combination.size_scale_le htwice
    have hsize := Combination.size_sub_le hdifference
    rw [operandBound, if_neg hchar]
    omega

/-- No operation of a slim system ends in one that is not, and none makes a handle of more than `m`
    terms. -/
theorem backend_keeps (table : Table) :
    (backend table).Keeps (slimness p m) fun w _ => Fits p m w := by
  apply backend_keeps_of_gates
  case hgrows => exact fun _ hx => hx
  case hconstant => exact keeps_constant table
  case hand =>
    intro w x y ty hx hy
    exact (keeps_and hm table ty hx hy).imp fun _ _ _ hv => hv.trans hm
  case hxor => exact keeps_xor hm table
  case hnot => exact keeps_not table

end Gates

end Slim

end WordCircuit.ConstraintSystem
