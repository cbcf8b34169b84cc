import WordCircuit.Proofs.ConstraintSystem.Connectives
import WordCircuit.Proofs.Preservation

namespace WordCircuit.ConstraintSystem

open WordCircuit.Frame (Keeps)

/-- Constants and the three gates decide what the operations of a constraint system keep. -/
theorem backend_keeps_of_gates {F : Frame ConstraintSystem} {Fits : F.World → Combination → Prop}
    {table : Table} (hgrows : ∀ {w w' x}, F.Grows w w' → Fits w x → Fits w' x)
    (hconstant : ∀ {w} (ty : ValueType) (d : Datum), F.Keeps w (constant table ty d) Fits)
    (hand : ∀ {w x y} (ty : ValueType), Fits w x → Fits w y → F.Keeps w (and table ty x y) Fits)
    (hxor : ∀ {w x y} (ty : ValueType), Fits w x → Fits w y → F.Keeps w (xor table ty x y) Fits)
    (hnot : ∀ {w x} (ty : ValueType), Fits w x → F.Keeps w (not table ty x) Fits) :
    (backend table).Keeps F fun w _ => Fits w := by
  constructor
  case fits_of_grows => exact fun h hx => hgrows h hx
  case constant => exact hconstant
  case binary =>
    intro w op ty x y hx hy
    cases op with
    | and => exact hand ty hx hy
    | or =>
      refine .after_check fun _ _ => (hnot ty hx).bind fun w₁ notX h₁ hnotX => ?_
      refine (hnot ty (hgrows h₁ hy)).bind fun w₂ notY h₂ hnotY => ?_
      refine (hand ty (hgrows h₂ hnotX) hnotY).bind fun w₃ neither h₃ hneither => ?_
      exact hnot ty hneither
    | xor => exact hxor ty hx hy
    | wrappingAdd => exact .undefined
  case not => exact fun ty x hx => hnot ty hx
  case shift =>
    intro w op ty x amount hx
    cases op <;> exact .undefined

/-- Systems, which grow by gates between handles alone. -/
abbrev growth : Frame ConstraintSystem where
  World := ConstraintSystem
  state s := s
  Grows := Extends
  grows_refl _ := .refl
  grows_trans := Extends.trans

variable {s : ConstraintSystem} {x y : Combination}

theorem Extends.declares {t : ConstraintSystem} (h : s.Extends t) (hx : s.Declares x) : t.Declares x :=
  h.precedes.declares hx

theorem keeps_compact (hx : s.Declares x) : growth.Keeps s (compact x) Declares := by
  obtain ⟨v, t, hexec, hgrows, hv, -⟩ := exists_exec_compact hx
  apply Frame.Yields.keeps
  exact ⟨v, t, hexec, hgrows, hv⟩

section Operations

variable (table : Table) (ty : ValueType)

theorem keeps_constant (d : Datum) : growth.Keeps s (constant table ty d) Declares := by
  unfold constant
  refine .after_check fun _ _ => .after_check fun canonical _ => .get ?_
  apply Keeps.pure
  apply declares_ofElement
  rw [order, Element.ofNumber_int]
  exact Element.over_ofClass _ _

theorem keeps_and (hx : s.Declares x) (hy : s.Declares y) :
    growth.Keeps s (and table ty x y) Declares := by
  unfold ConstraintSystem.and
  refine .after_check fun _ _ => .get (.after_check fun _ _ => .after_check fun _ _ => ?_)
  apply Frame.Yields.keeps
  exact ⟨s.nextVar, s.gate x y, exec_multiply hx hy, Extends.refl.gate hx hy,
    s.declares_gate_nextVar x y⟩

theorem keeps_xor (hx : s.Declares x) (hy : s.Declares y) :
    growth.Keeps s (xor table ty x y) Declares := by
  unfold ConstraintSystem.xor
  refine .after_check fun _ _ => .get (.after_check fun _ _ => .after_check fun _ _ => ?_)
  split
  · obtain ⟨sum, hsum, hcombines⟩ := Combination.exists_add hx.over_field hy.over_field
    exact .check hsum (keeps_compact (hx.combines hy hcombines))
  · refine (keeps_and table ty hx hy).bind fun t both hgrows hboth => ?_
    obtain ⟨sum, twice, difference, hsum, htwice, hdifference, hresult⟩ :=
      (hgrows.declares hx).exists_exclusive (hgrows.declares hy) hboth
    exact .check hsum (.check htwice (.check hdifference (keeps_compact hresult)))

theorem keeps_not (hx : s.Declares x) : growth.Keeps s (not table ty x) Declares := by
  unfold ConstraintSystem.not
  refine .after_check fun _ _ => .get (.after_check fun _ _ => ?_)
  have hone := s.declares_one
  obtain ⟨z, hz, hcombines⟩ := Combination.exists_sub hone.over_field hx.over_field
  apply Frame.Yields.keeps
  refine ⟨z, s, ?_, .refl, hone.combines hx hcombines⟩
  rw [Action.exec_bind_of_ok (exec_one s), hz]
  rfl

/-- Operations on handles pose gates and nothing else, and make handles. -/
theorem backend_keeps : (backend table).Keeps growth fun s _ => s.Declares :=
  backend_keeps_of_gates (fun hgrows hx => hgrows.declares hx) (keeps_constant table) (keeps_and table)
    (keeps_xor table) (keeps_not table)

end Operations

end WordCircuit.ConstraintSystem
