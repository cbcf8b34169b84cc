import WordCircuit.Proofs.ConstraintSystem.Forward
import WordCircuit.Proofs.ConstraintSystem.Growth
import WordCircuit.Proofs.Script.Preservation

namespace WordCircuit

open ConstraintSystem (growth Circuit Computes SolvesWith booleanity inputValues)

/-- All combinations of the handle are handles of the system. -/
def Piece.DeclaredIn (s : ConstraintSystem) (piece : Piece) : Prop :=
  ∀ x ∈ piece.combinations, s.Declares x

namespace Construction

/-- The construction is a circuit, and its handles are handles of the circuit. -/
structure Sound (p : Modulus) (bound : TermBound) (c : Construction) : Prop where
  circuit : Circuit p bound c.inputs c.system
  pieces : ∀ piece ∈ c.pieces, piece.DeclaredIn c.system

theorem Sound.perform {p : Modulus} {bound : TermBound} {filling : Nat → Datum} {c : Construction}
    (h : c.Sound p bound) {step : ScriptStep} (hstep : step.isCircuit = true) :
    (c.perform p filling step).Sound p bound := by
  obtain ⟨hcircuit, hpieces⟩ := h
  have hinput {t : ConstraintSystem} (hprecedes : c.system.Precedes t)
      (hx : t.Declares c.system.nextVar) :
      ∀ piece ∈ c.pieces ++ [.single c.system.nextVar], piece.DeclaredIn t := by
    rw [List.forall_mem_append, List.forall_mem_singleton]
    refine ⟨fun piece hmem x hx => hprecedes.declares (hpieces piece hmem x hx), ?_⟩
    exact List.forall_mem_singleton.mpr hx
  cases hkind : step.isInput with
  | true =>
    cases step with
    | allocBool =>
      have hrun : (ScriptStep.allocBool.run p filling c.pieces).exec c.system =
          (.ok [.single c.system.nextVar], c.system.withInput) :=
        Action.exec_bind_of_ok c.system.exec_allocBool
      unfold Construction.perform
      rw [hrun]
      exact ⟨hcircuit.allocBool, hinput c.system.precedes_withInput c.system.declares_withInput_nextVar⟩
    | declare =>
      have hrun : (ScriptStep.declare.run p filling c.pieces).exec c.system =
          (.ok [.single c.system.nextVar], c.system.next) :=
        Action.exec_bind_of_ok c.system.exec_fresh
      unfold Construction.perform
      rw [hrun]
      exact ⟨hcircuit.declare, hinput c.system.precedes_next c.system.declares_nextVar⟩
    | _ => cases hkind
  | false =>
    have hgates := ConstraintSystem.backend_keeps (ConstraintSystem.table p)
    obtain ⟨t, hsystem, hgrows, hdeclared⟩ :=
      perform_keeps hgates rfl hpieces (ScriptStep.keeps_run hgates hpieces hstep hkind)
    have hinputs : (c.perform p filling step).inputs = c.inputs := by simp [Construction.perform, hkind]
    simp only at hsystem
    subst hsystem
    constructor
    · rw [hinputs]
      exact hcircuit.of_extends hgrows
    · exact hdeclared

theorem sound_ofScript (p : Modulus) (bound : TermBound) (filling : Nat → Datum)
    {script : List ScriptStep} (hscript : ∀ step ∈ script, step.isCircuit = true) :
    (ofScript p bound filling script).Sound p bound := by
  have hnothing : Sound p bound ⟨[], [], .empty p bound⟩ := ⟨.empty, by simp⟩
  exact List.foldlRecOn script _ hnothing fun c hsound step hmem => hsound.perform (hscript step hmem)

end Construction

/-- A forward pass solves what a script makes that creates inputs and combines handles, over
    every field, with every bound on the number of terms and whether or not some of its steps
    fail. Each of the constraints either keeps an input to zero and one or computes a variable.
    So from any bits of the inputs the pass never reads a variable that lacks a value, and it ends
    in an assignment to all variables that satisfies every constraint. -/
theorem script_solved_by_forward_pass (p : Modulus) (bound : TermBound) (filling : Nat → Datum)
    {script : List ScriptStep} (hscript : ∀ step ∈ script, step.isCircuit = true)
    {built : Construction} (hbuilt : built = .ofScript p bound filling script) :
    (∀ (k : Nat) (c : ProductConstraint), built.system.constraints[k]? = some c →
      (∃ v ∈ built.inputs, c = booleanity p v) ∨ ∃ v, Computes p built.inputs built.system k c v) ∧
      ∀ bits : Nat → Bool, ∃ solution,
        built.system.solve (inputValues bits built.inputs) = .ok solution ∧
        SolvesWith p bits built.inputs built.system solution ∧
        ∀ (k : Nat) (c : ProductConstraint), built.system.constraints[k]? = some c →
          ∃ partway, (built.system.upTo k).solve (inputValues bits built.inputs) = .ok partway ∧
            ∀ v, Combination.variable? c.result = some v → partway.lacks v = true →
              ∀ x ∈ [c.left, c.right], ∀ i ∈ x.vars, partway.lacks i = false := by
  have hsound := Construction.sound_ofScript p bound filling hscript
  rw [← hbuilt] at hsound
  have hcircuit := hsound.circuit
  refine ⟨fun k c hc => hcircuit.booleanity_or_computes hc, fun bits => ?_⟩
  obtain ⟨solution, hsolves, hpass⟩ := hcircuit.exists_pass bits
  have hsolve : built.system.solve (inputValues bits built.inputs) = .ok solution := by
    rw [ConstraintSystem.solve_eq_foldlM bits fun _ => hcircuit.lt_of_mem_inputs, hcircuit.modulus_eq]
    have hall := hpass #[]
    rwa [Array.append_empty, Array.append_empty] at hall
  exact ⟨solution, hsolve, hsolves, fun k c hc => ConstraintSystem.exists_solve_upTo hsolve hc⟩

/-- Combines an input that may have any value with a bit. -/
def mixedScript : List ScriptStep :=
  [.declare, .allocBool, .binary .sliced .xor .bool 0 1, .binary .arithmetic .or .bool 2 0]

/-- Over the field with seven elements, with the sum of the first operation compacted, a pass
    solves the constraints that the script makes, from the bits one and zero. -/
theorem mixedScript_solved_by_forward_pass :
    (∀ step ∈ mixedScript, step.isCircuit = true) ∧
      ∃ built : Construction, built = .ofScript .seven (.atMost 1) (fun _ => .bool true) mixedScript ∧
        built.inputs = [0, 1] ∧ built.system.constraints.size = 4 ∧ ∃ solution,
          built.system.solve [(0, .int 1), (1, .int 0)] = .ok solution ∧
            solution.size = 5 ∧ built.system.isSatisfied solution = .ok true := by
  have hscript : ∀ step ∈ mixedScript, step.isCircuit = true := by decide
  have hpass := script_solved_by_forward_pass .seven (.atMost 1) (fun _ => .bool true) hscript rfl
  obtain ⟨solution, hsolve, ⟨⟨-, hsize, hsatisfied⟩, -⟩, -⟩ := hpass.2 fun i => i == 0
  exact ⟨hscript, _, rfl, by decide +kernel, by decide +kernel, solution, hsolve, hsize, hsatisfied⟩

end WordCircuit
