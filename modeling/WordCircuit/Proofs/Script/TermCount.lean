import WordCircuit.Proofs.ConstraintSystem.TermCount
import WordCircuit.Proofs.Script.Preservation

namespace WordCircuit

open ConstraintSystem (slimness operandBound)

/-- The system is slim, and no handle has more than `m` terms in one of its combinations. -/
structure Construction.Slim (p : Modulus) (m : Nat) (c : Construction) : Prop where
  system : c.system.Slim p m
  pieces : ∀ piece ∈ c.pieces, ∀ x ∈ piece.combinations, x.terms.size ≤ m

/-- A step that declares an input makes a handle of one term. -/
theorem ScriptStep.keeps_input {p : Modulus} {m : Nat} (hm : 1 ≤ m) {filling : Nat → Datum}
    {w : (slimness p m).World} {pieces : List Piece} {step : ScriptStep} (hinput : step.isInput = true) :
    (slimness p m).Keeps w (step.run p filling pieces)
      fun _ added => ∀ piece ∈ added, ∀ x ∈ piece.combinations, x.terms.size ≤ m := by
  have hsingle {v : Combination} (hv : v.terms.size ≤ 1) :
      ∀ piece ∈ [Piece.single v], ∀ x ∈ piece.combinations, x.terms.size ≤ m := by
    simpa [Piece.combinations] using hv.trans hm
  cases step with
  | allocBool => exact (ConstraintSystem.Slim.keeps_allocBool hm).bind fun _ _ _ hv => .pure (hsingle hv)
  | declare => exact ConstraintSystem.Slim.keeps_fresh.bind fun _ _ _ hv => .pure (hsingle hv)
  | _ => cases hinput

namespace Construction

variable {p : Modulus} {m : Nat}

theorem Slim.perform (hm : 1 ≤ m) {filling : Nat → Datum} {c : Construction} (h : c.Slim p m)
    {step : ScriptStep} (hstep : step.isCircuit = true) : (c.perform p filling step).Slim p m := by
  have hgates := ConstraintSystem.Slim.backend_keeps (p := p) hm (ConstraintSystem.table p)
  have hrun : (slimness p m).Keeps ⟨c.system, h.system⟩ (step.run p filling c.pieces)
      fun _ added => ∀ piece ∈ added, ∀ x ∈ piece.combinations, x.terms.size ≤ m := by
    cases hkind : step.isInput with
    | true => exact ScriptStep.keeps_input hm hkind
    | false => exact ScriptStep.keeps_run hgates h.pieces hstep hkind
  obtain ⟨w, hsystem, -, hpieces⟩ := perform_keeps hgates rfl h.pieces hrun
  exact ⟨hsystem ▸ w.property, hpieces⟩

theorem slim_ofScript (hm : 1 ≤ m) (filling : Nat → Datum) {script : List ScriptStep}
    (hscript : ∀ step ∈ script, step.isCircuit = true) :
    (ofScript p (.atMost m) filling script).Slim p m := by
  have hnothing : Slim p m ⟨[], [], .empty p (.atMost m)⟩ := ⟨.empty p m, by simp⟩
  exact List.foldlRecOn script _ hnothing fun c hslim step hmem => hslim.perform hm (hscript step hmem)

end Construction

/-- A script that creates inputs and combines handles, on a system that keeps at most `m` terms,
    never makes a handle with more of them, whichever of its steps fail. The operands of the
    constraints have at most one more than twice as many, and where one plus one is zero at most
    twice as many. -/
theorem script_bounds_terms (p : Modulus) {m : Nat} (hm : 1 ≤ m) (filling : Nat → Datum)
    {script : List ScriptStep} (hscript : ∀ step ∈ script, step.isCircuit = true)
    {built : Construction} (hbuilt : built = .ofScript p (.atMost m) filling script) :
    (∀ piece ∈ built.pieces, ∀ x ∈ piece.combinations, x.terms.size ≤ m) ∧
      ∀ c ∈ built.system.constraints, ∀ x ∈ [c.left, c.right, c.result],
        x.terms.size ≤ 2 * m + 1 ∧ (p.size = 2 → x.terms.size ≤ 2 * m) := by
  have hslim := Construction.slim_ofScript (p := p) hm filling hscript
  rw [← hbuilt] at hslim
  refine ⟨hslim.pieces, fun c hc x hx => ?_⟩
  have hoperand := hslim.system.operands c hc x hx
  rw [operandBound] at hoperand
  constructor
  · split at hoperand <;> omega
  · intro htwo
    rwa [if_pos (by simp [Modulus.isCharacteristicTwo, htwo])] at hoperand

/-- Two inputs whose exclusive or is compacted, and the sum of a known byte with itself. -/
def compactingScript : List ScriptStep :=
  [.allocBool, .declare, .binary .sliced .xor .bool 0 1, .constant .sliced .u8 0,
    .binary .sliced .wrappingAdd .u8 3 3]

/-- Over the field with seven elements, with one term at most, the exclusive or of the inputs has
    three terms before it is compacted. -/
theorem compactingScript_bounds_terms :
    1 ≤ 1 ∧ (∀ step ∈ compactingScript, step.isCircuit = true) ∧
      ∃ built : Construction, built = .ofScript .seven (.atMost 1) (fun _ => .int 5) compactingScript ∧
        (∀ piece ∈ built.pieces, ∀ x ∈ piece.combinations, x.terms.size ≤ 1) ∧
        (∃ c ∈ built.system.constraints, c.left.terms.size = 3) ∧
        ∀ c ∈ built.system.constraints, ∀ x ∈ [c.left, c.right, c.result], x.terms.size ≤ 3 := by
  have hscript : ∀ step ∈ compactingScript, step.isCircuit = true := by decide
  obtain ⟨hpieces, hoperands⟩ := script_bounds_terms .seven le_rfl (fun _ => .int 5) hscript rfl
  refine ⟨le_rfl, hscript, _, rfl, hpieces, ?_, fun c hc x hx => (hoperands c hc x hx).1⟩
  decide +kernel

end WordCircuit
