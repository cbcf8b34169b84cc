import Mathlib.Algebra.Field.ZMod
import Mathlib.Algebra.GroupWithZero.Idempotent
import WordCircuit.Proofs.ConstraintSystem.Assertions

namespace WordCircuit.ConstraintSystem

/-- At the assignment the inputs have the values of the given bits. -/
def Carries (p : Modulus) (bits : Nat → Bool) (inputs : List Combination)
    (assignment : Assignment) : Prop :=
  ∀ (k : Nat) (hk : k < inputs.length), inputs[k].evaluate assignment = .ok (.ofBool p (bits k))

theorem carries_concat_iff {p : Modulus} {bits : Nat → Bool} {inputs : List Combination}
    {x : Combination} {assignment : Assignment} :
    Carries p bits (inputs ++ [x]) assignment ↔ Carries p bits inputs assignment ∧
      x.evaluate assignment = .ok (.ofBool p (bits inputs.length)) := by
  constructor
  · intro h
    refine ⟨fun k hk => ?_, ?_⟩
    · have hbefore := h k (by rw [List.length_append]; omega)
      rwa [List.getElem_append_left hk] at hbefore
    · have hlast := h inputs.length (by simp)
      rwa [List.getElem_concat_length rfl] at hlast
  · rintro ⟨hbefore, hlast⟩ k hk
    by_cases hlt : k < inputs.length
    · rw [List.getElem_append_left hlt]
      exact hbefore k hlt
    · obtain rfl : k = inputs.length := by
        rw [List.length_append, List.length_singleton] at hk
        omega
      rwa [List.getElem_concat_length rfl]

theorem carries_congr {p : Modulus} {bits : Nat → Bool} {inputs : List Combination}
    {first second : Assignment}
    (hagree : ∀ x ∈ inputs, x.evaluate first = x.evaluate second) :
    Carries p bits inputs first ↔ Carries p bits inputs second :=
  forall₂_congr fun k hk => by rw [hagree inputs[k] (List.getElem_mem hk)]

/-- Over a prime modulus a solution has a bit for each input. -/
theorem exists_carries {p : Modulus} (hp : p.size.Prime) {inputs : List Combination}
    {assignment : Assignment}
    (hidempotent : ∀ x ∈ inputs, ∃ z, x.evaluate assignment = .ok (.ofClass p z) ∧ z * z = z) :
    ∃ bits, Carries p bits inputs assignment := by
  have : Fact p.size.Prime := ⟨hp⟩
  have hbit (k : Nat) : ∃ b, ∀ hk : k < inputs.length,
      inputs[k].evaluate assignment = .ok (.ofBool p b) := by
    by_cases hk : k < inputs.length
    · obtain ⟨z, hz, hsquare⟩ := hidempotent inputs[k] (List.getElem_mem hk)
      obtain rfl | rfl := IsIdempotentElem.iff_eq_zero_or_one.mp hsquare
      · exact ⟨false, fun _ => hz⟩
      · exact ⟨true, fun _ => hz⟩
    · exact ⟨false, fun h => absurd h hk⟩
  choose bits hbits using hbit
  exact ⟨bits, hbits⟩

/-- The value that is appended to an assignment is that of the variable that is
    declared next. -/
theorem evaluate_nextVar_extend {s : ConstraintSystem} {before : Assignment}
    (hover : before.Over s.modulus) (hsize : before.size = s.numVars) (z : ZMod s.modulus.size) :
    s.nextVar.evaluate (before.extend (.element (.ofClass s.modulus z))) =
      .ok (.ofClass s.modulus z) := by
  have hover' := Assignment.over_extend.mpr ⟨hover, z, rfl⟩
  refine (Combination.evaluate_eq_ofClass_iff hover' s.over_nextVar z).mpr ⟨?_, ?_⟩
  · exact s.declares_nextVar.covered (by rw [Assignment.size_extend, hsize, next_numVars])
  · rw [nextVar, order, Combination.denote_var, ← hsize, Assignment.classAt_extend_size]

/-- The system with an input, which is constrained to be its own square. -/
def withInput (s : ConstraintSystem) : ConstraintSystem :=
  s.next.push ⟨s.nextVar, s.nextVar, s.nextVar⟩

theorem precedes_withInput (s : ConstraintSystem) : s.Precedes s.withInput :=
  s.precedes_next.trans (precedes_push _ _)

theorem declares_withInput_nextVar (s : ConstraintSystem) : s.withInput.Declares s.nextVar :=
  s.declares_nextVar.push _

theorem WellFormed.withInput {s : ConstraintSystem} (hwell : s.WellFormed) : s.withInput.WellFormed := by
  have hnext := s.declares_nextVar
  exact hwell.next.push hnext hnext hnext

theorem exec_allocBool (s : ConstraintSystem) : allocBool.exec s = (.ok s.nextVar, s.withInput) := by
  have hnext := s.declares_nextVar
  rw [allocBool, Action.exec_bind_of_ok s.exec_fresh,
    Action.exec_bind_of_ok (exec_satisfy hnext hnext hnext)]
  rfl

/-- At a solution an input is its own square. -/
theorem exists_idempotent_of_withInput {s : ConstraintSystem} {assignment : Assignment}
    (hover : assignment.Over s.modulus) (hsat : s.withInput.isSatisfied assignment = .ok true) :
    ∃ z, s.nextVar.evaluate assignment = .ok (.ofClass s.modulus z) ∧ z * z = z := by
  rw [withInput, isSatisfied_push_iff] at hsat
  have hnext := s.over_nextVar
  obtain ⟨hcovered, -, -, hsquare⟩ :=
    (ProductConstraint.holds_eq_ok_true_iff hover hnext hnext hnext).mp hsat.2
  exact ⟨_, (Combination.evaluate_eq_ofClass_iff hover hnext _).mpr ⟨hcovered, rfl⟩, hsquare⟩

/-- The solutions after an input that have the bit `b` for it are those before it,
    each with this bit for the new variable. -/
theorem solves_withInput_iff {s : ConstraintSystem} (hwell : s.WellFormed) (b : Bool)
    (assignment : Assignment) :
    s.withInput.Solves assignment ∧ s.nextVar.evaluate assignment = .ok (.ofBool s.modulus b) ↔
      ∃ before, s.Solves before ∧ assignment = before.extend (.element (.ofBool s.modulus b)) := by
  constructor
  · rintro ⟨⟨hover, hsize, hsat⟩, hbit⟩
    change assignment.Over s.modulus at hover
    change assignment.size = s.numVars + 1 at hsize
    obtain ⟨before, value, rfl⟩ := assignment.exists_extend (by omega)
    obtain ⟨hbefore, z, rfl⟩ := Assignment.over_extend.mp hover
    rw [Assignment.size_extend, Nat.add_right_cancel_iff] at hsize
    rw [evaluate_nextVar_extend hbefore hsize] at hbit
    rw [withInput, isSatisfied_push_iff, isSatisfied_next, hwell.isSatisfied_extend hsize] at hsat
    exact ⟨before, ⟨hbefore, hsize, hsat.1⟩, by rw [Except.ok.inj hbit]⟩
  · rintro ⟨before, ⟨hover, hsize, hsat⟩, rfl⟩
    have hbit : s.nextVar.evaluate (before.extend (.element (.ofBool s.modulus b))) =
        .ok (.ofBool s.modulus b) := evaluate_nextVar_extend hover hsize _
    refine ⟨⟨Assignment.over_extend.mpr ⟨hover, _, rfl⟩, ?_, ?_⟩, hbit⟩
    · rw [Assignment.size_extend, hsize]
      rfl
    · rw [withInput, isSatisfied_push_iff, isSatisfied_next, hwell.isSatisfied_extend hsize]
      refine ⟨hsat, (ProductConstraint.holds_iff_of_evaluate hbit hbit hbit).mpr ?_⟩
      cases b <;> simp

/-- Values of so many variables that are bits. -/
def bitValues (p : Modulus) (bits : Nat → Bool) (count : Nat) : Assignment :=
  (Array.range count).map fun i => .element (.ofBool p (bits i))

theorem append_bitValues_succ (before : Assignment) (p : Modulus) (bits : Nat → Bool) (count : Nat) :
    before ++ bitValues p bits (count + 1) =
      Assignment.extend (before ++ bitValues p bits count) (.element (.ofBool p (bits count))) := by
  simp [bitValues, Assignment.extend, Array.range_succ]

/-- The system with so many more inputs. -/
def withInputs (s : ConstraintSystem) : Nat → ConstraintSystem
  | 0 => s
  | count + 1 => (s.withInputs count).withInput

/-- The variables of these inputs, first to last. -/
def newInputs (s : ConstraintSystem) : Nat → List Combination
  | 0 => []
  | count + 1 => s.newInputs count ++ [(s.withInputs count).nextVar]

variable (s : ConstraintSystem)

theorem length_newInputs (count : Nat) : (s.newInputs count).length = count := by
  induction count with
  | zero => rfl
  | succ count ih => rw [newInputs, List.length_append, ih, List.length_singleton]

theorem exec_mapM_allocBool (count : Nat) :
    ((List.range count).mapM fun _ => allocBool).exec s =
      (.ok (s.newInputs count), s.withInputs count) := by
  induction count with
  | zero => rfl
  | succ count ih =>
    rw [List.range_succ, List.mapM_append, Action.exec_bind_of_ok ih, List.mapM_cons, List.mapM_nil,
      bind_assoc, Action.exec_bind_of_ok (exec_allocBool _)]
    rfl

@[simp] theorem withInputs_modulus (count : Nat) : (s.withInputs count).modulus = s.modulus := by
  induction count with
  | zero => rfl
  | succ count ih => exact ih

@[simp] theorem withInputs_numVars (count : Nat) :
    (s.withInputs count).numVars = s.numVars + count := by
  induction count with
  | zero => rfl
  | succ count ih => exact congrArg Nat.succ ih

/-- Each input brings one constraint with it. -/
theorem exists_constraints_withInputs (count : Nat) :
    ∃ own : List ProductConstraint, own.length = count ∧
      (s.withInputs count).constraints.toList = s.constraints.toList ++ own := by
  induction count with
  | zero => exact ⟨[], rfl, (List.append_nil _).symm⟩
  | succ count ih =>
    obtain ⟨own, hlength, hown⟩ := ih
    rw [withInputs, withInput, push_constraints, next_constraints, Array.toList_push, hown]
    exact ⟨own ++ [_], by rw [List.length_append, hlength, List.length_singleton], List.append_assoc _ _ _⟩

variable {s}

theorem WellFormed.withInputs (hwell : s.WellFormed) (count : Nat) : (s.withInputs count).WellFormed := by
  induction count with
  | zero => exact hwell
  | succ count ih => exact ih.withInput

theorem declares_newInputs (s : ConstraintSystem) (count : Nat) :
    ∀ x ∈ s.newInputs count, (s.withInputs count).Declares x := by
  induction count with
  | zero => simp [newInputs]
  | succ count ih =>
    rw [newInputs, List.forall_mem_append, List.forall_mem_singleton]
    refine ⟨fun x hx => ?_, declares_withInput_nextVar _⟩
    exact (precedes_withInput _).declares (ih x hx)

/-- The solutions after several inputs that have given bits for them are those before them, each
    followed by these bits. -/
theorem solves_withInputs_iff (hwell : s.WellFormed) (bits : Nat → Bool) (count : Nat)
    (assignment : Assignment) :
    (s.withInputs count).Solves assignment ∧
        Carries s.modulus bits (s.newInputs count) assignment ↔
      ∃ before, s.Solves before ∧ assignment = before ++ bitValues s.modulus bits count := by
  induction count generalizing assignment with
  | zero =>
    have hnothing : bitValues s.modulus bits 0 = #[] := by simp [bitValues]
    simp only [withInputs, newInputs, hnothing, Array.append_empty, exists_eq_right', and_iff_left_iff_imp]
    intro _ k hk
    exact absurd hk (Nat.not_lt_zero k)
  | succ count ih =>
    have hwell' := hwell.withInputs count
    have hlast := solves_withInput_iff hwell' (bits count)
    rw [withInputs_modulus] at hlast
    -- The last input does not change what those before it evaluate to.
    have hagree {before : Assignment} (hbefore : (s.withInputs count).Solves before) (value : Operand) :
        ∀ x ∈ s.newInputs count, x.evaluate (before.extend value) = x.evaluate before := by
      intro x hx
      apply Combination.evaluate_congr
      exact (s.declares_newInputs count x hx).valueAt?_extend hbefore.size_eq value
    rw [newInputs, carries_concat_iff, length_newInputs, withInputs, and_left_comm, hlast assignment]
    constructor
    · rintro ⟨hcarries, middle, hmiddle, rfl⟩
      rw [carries_congr (hagree hmiddle _)] at hcarries
      obtain ⟨before, hbefore, rfl⟩ := (ih middle).mp ⟨hmiddle, hcarries⟩
      exact ⟨before, hbefore, (append_bitValues_succ before _ bits count).symm⟩
    · rintro ⟨before, hbefore, rfl⟩
      rw [append_bitValues_succ]
      obtain ⟨hmiddle, hcarries⟩ := (ih _).mpr ⟨before, hbefore, rfl⟩
      refine ⟨?_, _, hmiddle, rfl⟩
      rwa [carries_congr (hagree hmiddle _)]

/-- Whatever the bits of several inputs are, there is a solution with them once gates have
    followed the inputs. -/
theorem exists_solves_carries (hwell : s.WellFormed) {before : Assignment} (hbefore : s.Solves before)
    (bits : Nat → Bool) {count : Nat} {t : ConstraintSystem} (h : (s.withInputs count).Continues t) :
    ∃ assignment : Assignment, assignment.Over s.modulus ∧ t.Solves assignment ∧
      Carries s.modulus bits (s.newInputs count) assignment := by
  obtain ⟨hinputs, hcarries⟩ := (solves_withInputs_iff hwell bits count _).mpr ⟨before, hbefore, rfl⟩
  obtain ⟨after, hafter, hvalues⟩ := h.exists_solves (hwell.withInputs count) hinputs
  have hover := hafter.over_field
  rw [h.precedes.modulus_eq, withInputs_modulus] at hover
  refine ⟨after, hover, hafter, (carries_congr fun x hx => ?_).mpr hcarries⟩
  exact hvalues x (s.declares_newInputs count x hx)

end WordCircuit.ConstraintSystem
