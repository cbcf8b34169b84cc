import WordCircuit.Proofs.BitSliced.Interpretation
import WordCircuit.Proofs.ConstraintSystem.Assertions
import WordCircuit.Proofs.ConstraintSystem.Inputs
import WordCircuit.Proofs.Program.Direct

namespace WordCircuit

open ConstraintSystem

/-- What holds of a system that a program has built, for given input bits: each handle
    has the value of the program at every assignment that carries these bits, and
    the solutions that carry them are one single assignment if what is asserted
    `holds`, and none otherwise. -/
structure Solved (p : Modulus) (bits : Nat → Bool) (inputs : List Combination) {Γ : List ValueType}
    (env : Env (BitSliced.Handle Combination) Γ) (values : Env Value Γ) (holds : Prop)
    (s : ConstraintSystem) : Prop where
  modulus_eq : s.modulus = p
  wellFormed : s.WellFormed
  declares : ∀ x ∈ inputs, s.Declares x
  idempotent : ∀ x ∈ inputs, ∀ assignment : Assignment, assignment.Over s.modulus →
    s.isSatisfied assignment = .ok true →
      ∃ z, x.evaluate assignment = .ok (.ofClass s.modulus z) ∧ z * z = z
  reads : (BitSliced.sliced (bitReading (Carries p bits inputs))).ReadsAll s env values
  holds_of_isSatisfied : ∀ assignment, Carries p bits inputs assignment →
    assignment.Over s.modulus → s.isSatisfied assignment = .ok true → holds
  solutions : ∃ solution, ∀ assignment,
    s.Solves assignment ∧ Carries p bits inputs assignment ↔ holds ∧ assignment = solution

namespace Solved

variable {p : Modulus} {bits : Nat → Bool} {inputs : List Combination} {Γ : List ValueType}
  {env : Env (BitSliced.Handle Combination) Γ} {values : Env Value Γ} {holds condition : Prop}
  {s t : ConstraintSystem}

theorem start (bound : TermBound) : Solved p bits [] .empty .empty True (empty p bound) where
  modulus_eq := rfl
  wellFormed := wellFormed_empty p bound
  declares _ hx := absurd hx List.not_mem_nil
  idempotent _ hx := absurd hx List.not_mem_nil
  reads _ r := nomatch r
  holds_of_isSatisfied _ _ _ _ := trivial
  solutions := by
    refine ⟨#[], fun assignment => ⟨fun h => ⟨trivial, Array.eq_empty_of_size_eq_zero h.1.size_eq⟩, ?_⟩⟩
    rintro ⟨-, rfl⟩
    exact ⟨solves_empty p bound, fun k hk => absurd hk (Nat.not_lt_zero k)⟩

/-- A handle with a value of its own can be added to those of the program. -/
theorem push (h : Solved p bits inputs env values holds s) {ty : ValueType}
    {x : BitSliced.Handle Combination ty} {v : Value ty}
    (hx : (BitSliced.sliced (bitReading (Carries p bits inputs))).Reads s ty x v) :
    Solved p bits inputs (env.push x) (values.push v) holds s :=
  { h with reads := h.reads.push hx }

/-- An input adds its bit to each solution. -/
theorem input (h : Solved p bits inputs env values holds s) :
    Solved p bits (inputs ++ [s.nextVar]) (env.push s.nextVar : Env _ (.bool :: Γ))
      (values.push (Value.ofBool (bits inputs.length))) holds s.withInput where
  modulus_eq := h.modulus_eq
  wellFormed := h.wellFormed.withInput
  declares x hx := by
    obtain hx | rfl := List.mem_append.mp hx |>.imp id List.eq_of_mem_singleton
    · exact s.precedes_withInput.declares (h.declares x hx)
    · exact s.declares_withInput_nextVar
  idempotent x hx assignment hover hsat := by
    obtain hx | rfl := List.mem_append.mp hx |>.imp id List.eq_of_mem_singleton
    · exact h.idempotent x hx assignment hover (s.precedes_withInput.isSatisfied hsat)
    · exact exists_idempotent_of_withInput (s := s) hover hsat
  reads := by
    have hbefore : (BitSliced.sliced (bitReading (Carries p bits (inputs ++ [s.nextVar])))).ReadsAll
        s.withInput env values := fun ty r => ⟨(h.reads ty r).length_eq, fun i hi =>
      ((h.reads ty r).reads i hi).mono s.precedes_withInput fun _ hcarries =>
        (carries_concat_iff.mp hcarries).1⟩
    refine hbefore.push (Reading.spells_singleton_iff.mpr ?_)
    refine ⟨s.declares_withInput_nextVar, fun assignment hcarries _ _ => ?_⟩
    rw [(carries_concat_iff.mp hcarries).2, Value.getLsbD_ofBool, ← h.modulus_eq]
    rfl
  holds_of_isSatisfied assignment hcarries hover hsat :=
    h.holds_of_isSatisfied assignment (carries_concat_iff.mp hcarries).1 hover
      (s.precedes_withInput.isSatisfied hsat)
  solutions := by
    obtain ⟨solution, hsolution⟩ := h.solutions
    have hinput := solves_withInput_iff h.wellFormed (bits inputs.length)
    have hcarries {before : Assignment} (hbefore : s.Solves before) (value : Operand) :
        Carries p bits inputs (before.extend value) ↔ Carries p bits inputs before :=
      carries_congr fun x hx => Combination.evaluate_congr
        ((h.declares x hx).valueAt?_extend hbefore.size_eq value)
    refine ⟨solution.extend (.element (.ofBool p (bits inputs.length))), fun assignment => ?_⟩
    rw [carries_concat_iff, and_comm (a := Carries p bits inputs assignment), ← and_assoc]
    rw [← h.modulus_eq] at hcarries hsolution ⊢
    rw [hinput]
    constructor
    · rintro ⟨⟨before, hbefore, rfl⟩, hcarriesAfter⟩
      obtain ⟨hholds, rfl⟩ := (hsolution before).mp ⟨hbefore, (hcarries hbefore _).mp hcarriesAfter⟩
      exact ⟨hholds, rfl⟩
    · rintro ⟨hholds, rfl⟩
      obtain ⟨hbefore, hcarriesBefore⟩ := (hsolution solution).mpr ⟨hholds, rfl⟩
      exact ⟨⟨solution, hbefore, rfl⟩, (hcarries hbefore _).mpr hcarriesBefore⟩

/-- Gates give each solution exactly one continuation. -/
theorem of_extends (h : Solved p bits inputs env values holds s) (hextends : s.Extends t) :
    Solved p bits inputs env values holds t where
  modulus_eq := hextends.precedes.modulus_eq.trans h.modulus_eq
  wellFormed := hextends.wellFormed h.wellFormed
  declares x hx := hextends.precedes.declares (h.declares x hx)
  idempotent x hx assignment hover hsat := by
    rw [hextends.precedes.modulus_eq] at *
    exact h.idempotent x hx assignment hover (hextends.precedes.isSatisfied hsat)
  reads := h.reads.of_grows hextends
  holds_of_isSatisfied assignment hcarries hover hsat :=
    h.holds_of_isSatisfied assignment hcarries (hextends.precedes.modulus_eq ▸ hover)
      (hextends.precedes.isSatisfied hsat)
  solutions := by
    obtain ⟨solution, hsolution⟩ := h.solutions
    obtain ⟨extension, hsolves, hvalues⟩ := hextends.continues.exists_extension h.wellFormed
    have hcarries {before : Assignment} (hbefore : s.Solves before) :
        Carries p bits inputs (extension before) ↔ Carries p bits inputs before := by
      refine carries_congr fun x hx => Combination.evaluate_congr fun i hi => ?_
      obtain ⟨hlo, hhi⟩ := (h.declares x hx).vars i hi
      exact hvalues before hbefore i hlo hhi
    refine ⟨extension solution, fun assignment => ?_⟩
    rw [hsolves]
    constructor
    · rintro ⟨⟨before, hbefore, rfl⟩, hcarriesAfter⟩
      obtain ⟨hholds, rfl⟩ := (hsolution before).mp ⟨hbefore, (hcarries hbefore).mp hcarriesAfter⟩
      exact ⟨hholds, rfl⟩
    · rintro ⟨hholds, rfl⟩
      obtain ⟨hbefore, hcarriesBefore⟩ := (hsolution solution).mpr ⟨hholds, rfl⟩
      exact ⟨⟨solution, hbefore, rfl⟩, (hcarries hbefore).mpr hcarriesBefore⟩

/-- An assertion keeps the solution if it is true and loses it otherwise. -/
theorem asserts (h : Solved p bits inputs env values holds s)
    (hasserts : Asserts (Carries p bits inputs) s t condition) :
    Solved p bits inputs env values (holds ∧ condition) t where
  modulus_eq := hasserts.precedes.modulus_eq.trans h.modulus_eq
  wellFormed := hasserts.wellFormed h.wellFormed
  declares x hx := hasserts.precedes.declares (h.declares x hx)
  idempotent x hx assignment hover hsat := by
    rw [hasserts.precedes.modulus_eq] at *
    exact h.idempotent x hx assignment hover (hasserts.precedes.isSatisfied hsat)
  reads ty r := ⟨(h.reads ty r).length_eq, fun i hi =>
    ((h.reads ty r).reads i hi).mono hasserts.precedes fun _ => id⟩
  holds_of_isSatisfied assignment hcarries hover hsat := by
    rw [hasserts.precedes.modulus_eq] at hover
    obtain ⟨hbefore, hcondition⟩ := (hasserts.isSatisfied_iff assignment hcarries hover).mp hsat
    exact ⟨h.holds_of_isSatisfied assignment hcarries hover hbefore, hcondition⟩
  solutions := by
    obtain ⟨solution, hsolution⟩ := h.solutions
    refine ⟨solution, fun assignment => ?_⟩
    constructor
    · rintro ⟨⟨hover, hsize, hsat⟩, hcarries⟩
      rw [hasserts.precedes.modulus_eq] at hover
      rw [hasserts.numVars_eq] at hsize
      obtain ⟨hbefore, hcondition⟩ := (hasserts.isSatisfied_iff assignment hcarries hover).mp hsat
      obtain ⟨hholds, rfl⟩ := (hsolution assignment).mp ⟨⟨hover, hsize, hbefore⟩, hcarries⟩
      exact ⟨⟨hholds, hcondition⟩, rfl⟩
    · rintro ⟨⟨hholds, hcondition⟩, rfl⟩
      obtain ⟨⟨hover, hsize, hsat⟩, hcarries⟩ := (hsolution assignment).mpr ⟨hholds, rfl⟩
      refine ⟨⟨hasserts.precedes.modulus_eq ▸ hover, hasserts.numVars_eq ▸ hsize, ?_⟩, hcarries⟩
      exact (hasserts.isSatisfied_iff assignment hcarries hover).mpr ⟨hsat, hcondition⟩

end Solved

/-- Circuits can assert what the constraint system can. -/
theorem require_circuit_assertTrue (p : Modulus) (operation : String) :
    (BitSliced.table (Host.arithmetic p).backend).require BitSliced.name .bool .assertTrue operation =
      .ok () := by
  have hsupports : (Host.arithmetic p).backend.table.supports .bool .assertTrue = true :=
    supports_bool p (by simp)
  exact BitSliced.require_assertTrue hsupports operation

theorem require_circuit_assertEq (p : Modulus) (ty : ValueType) (operation : String) :
    (BitSliced.table (Host.arithmetic p).backend).require BitSliced.name ty .assertEq operation =
      .ok () := by
  have hsupports : (Host.arithmetic p).backend.table.supports .bool .assertEq = true :=
    supports_bool p (by simp)
  exact BitSliced.require_assertEq hsupports ty operation

section Steps

variable {given : Assignment → Prop} {s : ConstraintSystem} {ty : ValueType}

/-- Bits that are grouped stand for the value with these bits. -/
theorem yields_circuit_group (p : Modulus) {handles : Fin ty.width → Combination}
    {bit : Fin ty.width → Value .bool}
    (hbits : ∀ i, (BitSliced.sliced (bitReading given)).Reads s .bool (handles i) (bit i)) :
    (BitSliced.sliced (bitReading given)).Yields s ((Host.circuit p).group ty handles)
      (fun t x => (BitSliced.sliced (bitReading given)).Reads t ty x
        (Bits.word fun i => (bit i).getLsbD 0)) := by
  have hspells := BitSliced.spells_ofFn fun i => Reading.spells_singleton_iff.mp (hbits i)
  cases ty with
  | bool => exact .pure hspells
  | u8 => exact .pure hspells
  | u32 => exact .pure hspells

theorem exec_circuit_assertTrue (p : Modulus) {x : Combination} {u : Value .bool}
    (hx : (BitSliced.sliced (bitReading given)).Reads s .bool x u) :
    ∃ t, ((Host.circuit p).backend.assertTrue x).exec s = (.ok (), t) ∧ Asserts given s t (u = 1) := by
  obtain ⟨t, hexec, hasserts⟩ := exec_assertTrue p (Reading.spells_singleton_iff.mp hx)
  refine ⟨t, ?_, hasserts.congr (ValueType.eq_one_iff u).symm⟩
  exact (Action.exec_liftM_bind_of_ok (require_circuit_assertTrue p _) s).trans hexec

theorem exec_circuit_assertEq (p : Modulus) {x y : BitSliced.Handle Combination ty} {u v : Value ty}
    (hx : (BitSliced.sliced (bitReading given)).Reads s ty x u)
    (hy : (BitSliced.sliced (bitReading given)).Reads s ty y v) :
    ∃ t, ((Host.circuit p).backend.assertEq ty x y).exec s = (.ok (), t) ∧
      Asserts given s t (u = v) := by
  have hrequire := require_circuit_assertEq p ty "assert_eq"
  obtain ⟨t, hexec, hasserts⟩ := exec_forM_assertEq p hx hy
  have hwidth := BitSliced.checkWidth_of_spells hx
  have hwidth' := BitSliced.checkWidth_of_spells hy
  refine ⟨t, ?_, hasserts.congr Value.forall_getLsbD_iff⟩
  cases ty with
  | bool =>
    obtain ⟨⟨⟩, t', hfirst, hrest⟩ := Action.exec_bind_eq_ok_iff.mp hexec
    obtain rfl : t' = t := congrArg Prod.snd hrest
    exact (Action.exec_liftM_bind_of_ok hrequire s).trans hfirst
  | u8 =>
    refine (Action.exec_liftM_bind_of_ok hrequire s).trans ?_
    refine (Action.exec_liftM_bind_of_ok hwidth s).trans ?_
    exact (Action.exec_liftM_bind_of_ok hwidth' s).trans hexec
  | u32 =>
    refine (Action.exec_liftM_bind_of_ok hrequire s).trans ?_
    refine (Action.exec_liftM_bind_of_ok hwidth s).trans ?_
    exact (Action.exec_liftM_bind_of_ok hwidth' s).trans hexec

end Steps

namespace Program

variable {p : Modulus} {bound : TermBound}

/-- A program that runs to its end has values for all handles, whatever its input
    bits are, and leaves a system that it solves for them. -/
theorem exec_circuit (bits : Nat → Bool) {Γ : List ValueType} {P : Program Γ}
    {env : Env (BitSliced.Handle Combination) Γ} {t : ConstraintSystem}
    (hrun : (P.run (.circuit p)).exec (empty p bound) = (.ok env, t)) :
    ∃ values, P.values bits = .ok values ∧
      Solved p bits (P.inputs.map (env .bool)) env values (P.Holds bits) t := by
  induction P generalizing t with
  | start =>
    cases hrun
    exact ⟨.empty, rfl, .start bound⟩
  | input P ih =>
    obtain ⟨before, s, hbefore, hrun⟩ := Action.exec_bind_eq_ok_iff.mp hrun
    obtain ⟨values, hvalues, hsolved⟩ := ih hbefore
    have hinput : ((Host.circuit p).input P.inputs.length).exec s = (.ok s.nextVar, s.withInput) :=
      exec_allocBool s
    rw [Action.exec_bind_of_ok hinput] at hrun
    cases hrun
    refine ⟨_, bind_eq_ok_iff.mpr ⟨values, hvalues, rfl⟩, ?_⟩
    have hsolved := hsolved.input
    rw [List.length_map] at hsolved
    rw [inputs, List.map_append, Env.map_push_there]
    exact hsolved
  | group P ty refs ih =>
    obtain ⟨before, s, hbefore, hrun⟩ := Action.exec_bind_eq_ok_iff.mp hrun
    obtain ⟨values, hvalues, hsolved⟩ := ih hbefore
    obtain ⟨x, s', hgroup, hextends, hx⟩ :=
      yields_circuit_group p fun i => hsolved.reads .bool (refs i)
    rw [Action.exec_bind_of_ok hgroup] at hrun
    cases hrun
    refine ⟨_, bind_eq_ok_iff.mpr ⟨values, hvalues, rfl⟩, ?_⟩
    rw [inputs, Env.map_push_there]
    exact (hsolved.of_extends hextends).push hx
  | @operation Γ ty P op ih =>
    obtain ⟨before, s, hbefore, hrun⟩ := Action.exec_bind_eq_ok_iff.mp hrun
    obtain ⟨values, hvalues, hsolved⟩ := ih hbefore
    obtain ⟨x, s', hop, hrun⟩ := Action.exec_bind_eq_ok_iff.mp hrun
    cases hrun
    have hmodels := BitSliced.sliced_models
      (bitReading_respects (Carries p bits (P.inputs.map (before .bool))) p) ty
    obtain ⟨v, _, hv, rfl, hextends, hx⟩ := (hsolved.reads.follows hmodels op).of_exec hop
    refine ⟨_, bind_eq_ok_iff.mpr ⟨values, hvalues, bind_eq_ok_iff.mpr ⟨v, hv, rfl⟩⟩, ?_⟩
    rw [inputs, Env.map_push_there]
    exact (hsolved.of_extends hextends).push hx
  | assertTrue P a ih =>
    obtain ⟨before, s, hbefore, hrun⟩ := Action.exec_bind_eq_ok_iff.mp hrun
    obtain ⟨values, hvalues, hsolved⟩ := ih hbefore
    obtain ⟨s', hassert, hasserts⟩ := exec_circuit_assertTrue p (hsolved.reads .bool a)
    rw [Action.exec_bind_of_ok hassert] at hrun
    cases hrun
    refine ⟨values, hvalues, ?_⟩
    have hsolved := hsolved.asserts hasserts
    rwa [show P.Holds bits ∧ values .bool a = 1 ↔ (P.assertTrue a).Holds bits by
      rw [Holds, hvalues]; simp] at hsolved
  | @assertEq Γ ty P a b ih =>
    obtain ⟨before, s, hbefore, hrun⟩ := Action.exec_bind_eq_ok_iff.mp hrun
    obtain ⟨values, hvalues, hsolved⟩ := ih hbefore
    obtain ⟨s', hassert, hasserts⟩ :=
      exec_circuit_assertEq p (hsolved.reads ty a) (hsolved.reads ty b)
    rw [Action.exec_bind_of_ok hassert] at hrun
    cases hrun
    refine ⟨values, hvalues, ?_⟩
    have hsolved := hsolved.asserts hasserts
    rwa [show P.Holds bits ∧ values ty a = values ty b ↔ (P.assertEq a b).Holds bits by
      rw [Holds, hvalues]; simp] at hsolved

/-- A program runs to its end if each of its steps is one that every backend takes. -/
theorem Accepted.exists_exec_circuit {Γ : List ValueType} {P : Program Γ} (haccepted : P.Accepted)
    (p : Modulus) (bound : TermBound) :
    ∃ env t, (P.run (.circuit p)).exec (empty p bound) = (.ok env, t) := by
  induction P with
  | start => exact ⟨_, _, rfl⟩
  | input P ih =>
    obtain ⟨env, s, hbefore⟩ := ih haccepted
    refine ⟨env.push s.nextVar, s.withInput, (Action.exec_bind_of_ok hbefore).trans ?_⟩
    exact Action.exec_bind_of_ok (exec_allocBool s)
  | group P ty refs ih =>
    obtain ⟨env, s, hbefore⟩ := ih haccepted
    obtain ⟨values, -, hsolved⟩ := exec_circuit (fun _ => false) hbefore
    obtain ⟨x, s', hgroup, -⟩ := yields_circuit_group p fun i => hsolved.reads .bool (refs i)
    exact ⟨_, _, (Action.exec_bind_of_ok hbefore).trans (Action.exec_bind_of_ok hgroup)⟩
  | @operation Γ ty P op ih =>
    obtain ⟨env, s, hbefore⟩ := ih haccepted.1
    obtain ⟨values, -, hsolved⟩ := exec_circuit (fun _ => false) hbefore
    have hmodels := BitSliced.sliced_models
      (bitReading_respects (Carries p (fun _ => false) (P.inputs.map (env .bool))) p) ty
    have hfollows := hsolved.reads.follows hmodels op
    obtain ⟨v, hv⟩ := haccepted.2.exists_value values
    rw [hv] at hfollows
    obtain ⟨x, s', hop, -⟩ := hfollows
    exact ⟨_, _, (Action.exec_bind_of_ok hbefore).trans (Action.exec_bind_of_ok hop)⟩
  | assertTrue P a ih =>
    obtain ⟨env, s, hbefore⟩ := ih haccepted
    obtain ⟨values, -, hsolved⟩ := exec_circuit (fun _ => false) hbefore
    obtain ⟨s', hassert, -⟩ := exec_circuit_assertTrue p (hsolved.reads .bool a)
    exact ⟨_, _, (Action.exec_bind_of_ok hbefore).trans (Action.exec_bind_of_ok hassert)⟩
  | @assertEq Γ ty P a b ih =>
    obtain ⟨env, s, hbefore⟩ := ih haccepted
    obtain ⟨values, -, hsolved⟩ := exec_circuit (fun _ => false) hbefore
    obtain ⟨s', hassert, -⟩ := exec_circuit_assertEq p (hsolved.reads ty a) (hsolved.reads ty b)
    exact ⟨_, _, (Action.exec_bind_of_ok hbefore).trans (Action.exec_bind_of_ok hassert)⟩

end Program

end WordCircuit
