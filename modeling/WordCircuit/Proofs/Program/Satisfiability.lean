import WordCircuit.Proofs.Program.Circuit

namespace WordCircuit.Program

open ConstraintSystem

/-- Direct evaluation of the program on the input bits stops at an assertion. -/
def RaisesAssertion (bits : Nat → Bool) (j : Journal) {Γ : List ValueType} (P : Program Γ) : Prop :=
  ∃ fault t, (P.run (.direct bits)).exec j = (.error fault, t) ∧ fault.kind = .assertion

/-- Where all values exist, direct evaluation stops at an assertion exactly if one of
    them does not hold. -/
theorem raisesAssertion_iff {bits : Nat → Bool} {Γ : List ValueType} {P : Program Γ}
    {values : Env Value Γ} (hvalues : P.values bits = .ok values) (j : Journal) :
    P.RaisesAssertion bits j ↔ ¬P.Holds bits := by
  obtain ⟨hpass, hfail⟩ := exec_direct hvalues j
  constructor
  · rintro ⟨fault, t, hexec, -⟩ hholds
    cases hexec.symm.trans (hpass hholds)
  · intro hnot
    obtain ⟨fault, hexec, hkind⟩ := hfail hnot
    exact ⟨fault, j, hexec, hkind⟩

/-- The system that a program builds over words can be solved for given input bits
    exactly if direct evaluation on these bits stops at no assertion, and then in one
    way only. A program of accepted steps does build a system. -/
theorem exists_solves_iff_not_raisesAssertion (p : Modulus) (bound : TermBound) {Γ : List ValueType}
    (P : Program Γ) (bits : Nat → Bool) (j : Journal) :
    (P.Accepted → ∃ env t, (P.run (.circuit p)).exec (empty p bound) = (.ok env, t)) ∧
      ∀ env t, (P.run (.circuit p)).exec (empty p bound) = (.ok env, t) →
        ((∃ assignment, t.Solves assignment ∧
            Carries p bits (P.inputs.map (env .bool)) assignment) ↔ ¬P.RaisesAssertion bits j) ∧
          ∀ first second,
            t.Solves first → Carries p bits (P.inputs.map (env .bool)) first →
            t.Solves second → Carries p bits (P.inputs.map (env .bool)) second →
              first = second := by
  refine ⟨fun haccepted => haccepted.exists_exec_circuit p bound, fun env t hrun => ?_⟩
  obtain ⟨values, hvalues, hsolved⟩ := exec_circuit bits hrun
  obtain ⟨solution, hsolution⟩ := hsolved.solutions
  rw [raisesAssertion_iff hvalues, not_not]
  refine ⟨⟨?_, fun hholds => ?_⟩, ?_⟩
  · rintro ⟨assignment, hsolves, hcarries⟩
    exact ((hsolution assignment).mp ⟨hsolves, hcarries⟩).1
  · exact ⟨solution, (hsolution solution).mpr ⟨hholds, rfl⟩⟩
  · intro first second hfirst hcarries hsecond hcarries'
    have heq := ((hsolution first).mp ⟨hfirst, hcarries⟩).2
    have heq' := ((hsolution second).mp ⟨hsecond, hcarries'⟩).2
    exact heq.trans heq'.symm

/-- Two inputs that are asserted to be equal. -/
def equalInputs : Program [.bool, .bool] :=
  .assertEq (.input (.input .start)) .here (.there .here)

/-- Equal bits solve the assertion of their equality, and different ones do not. -/
theorem equalInputs_solvable_iff :
    ∃ env t, (equalInputs.run (.circuit .seven)).exec (empty .seven .unlimited) = (.ok env, t) ∧
      (∃ assignment, t.Solves assignment ∧
        Carries .seven (fun _ => true) (equalInputs.inputs.map (env .bool)) assignment) ∧
      ¬∃ assignment, t.Solves assignment ∧
        Carries .seven (fun k => k == 0) (equalInputs.inputs.map (env .bool)) assignment := by
  obtain ⟨hbuilds, hequal⟩ :=
    exists_solves_iff_not_raisesAssertion .seven .unlimited equalInputs (fun _ => true) .empty
  obtain ⟨-, hdifferent⟩ :=
    exists_solves_iff_not_raisesAssertion .seven .unlimited equalInputs (fun k => k == 0) .empty
  obtain ⟨env, t, hrun⟩ := hbuilds trivial
  refine ⟨env, t, hrun, (hequal env t hrun).1.mpr ?_, ?_⟩
  · rintro ⟨fault, j, hexec, -⟩
    cases hexec
  · rw [(hdifferent env t hrun).1, not_not]
    exact ⟨_, _, rfl, rfl⟩

end WordCircuit.Program
