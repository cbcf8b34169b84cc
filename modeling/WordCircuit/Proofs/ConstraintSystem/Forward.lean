import WordCircuit.ConstraintSystem.Witness
import WordCircuit.Proofs.ConstraintSystem.Circuit

namespace WordCircuit

namespace Assignment

theorem valueAt?_append_of_lt (assignment rest : Assignment) {index : Int} (hlo : 0 ≤ index)
    (hhi : index < assignment.size) : (assignment ++ rest).valueAt? index = assignment.valueAt? index := by
  rw [valueAt?_of_nonneg _ hlo, valueAt?_of_nonneg _ hlo, Array.getElem?_append_left (by omega)]

theorem valueAt?_extend_append_size (assignment rest : Assignment) (value : Operand) :
    (assignment.extend value ++ rest).valueAt? assignment.size = some value := by
  have hlt : (assignment.size : Int) < (assignment.extend value).size := by
    rw [size_extend]
    omega
  rw [valueAt?_append_of_lt _ _ (by omega) hlt, valueAt?_of_nonneg _ (by omega), extend,
    Int.toNat_natCast, Array.getElem?_push_size]

theorem extend_append (assignment rest : Assignment) (value : Operand) :
    assignment.extend value ++ rest = assignment ++ (#[value] ++ rest) := by
  rw [extend, Array.push_eq_append, Array.append_assoc]

/-- Setting the entry after the first ones changes this entry alone. -/
theorem assign_extend_append (assignment rest : Assignment) (old value : Operand) :
    (assignment.extend old ++ rest).assign assignment.size value = assignment.extend value ++ rest := by
  have hposition : (assignment.extend old ++ rest).position? assignment.size = some assignment.size := by
    rw [position?, if_pos (by omega), if_pos, Int.toNat_natCast]
    rw [Array.size_append, size_extend]
    omega
  have hfirst : (#[old] ++ rest : Assignment).setIfInBounds 0 value = #[value] ++ rest := by
    rw [Array.setIfInBounds_append_left Nat.one_pos]
    rfl
  rw [assign, hposition, extend_append, extend_append]
  simp only
  rw [Array.setIfInBounds_append_right le_rfl, Nat.sub_self, hfirst]

/-- The assignment at the start of a pass: a bit for each input, and no values for the other
    variables. -/
def start (p : Modulus) (bits : Nat → Bool) (inputs : List Nat) (count : Nat) : Assignment :=
  (Array.range count).map fun i => if i ∈ inputs then .element (.ofBool p (bits i)) else .unset

theorem size_start (p : Modulus) (bits : Nat → Bool) (inputs : List Nat) (count : Nat) :
    (start p bits inputs count).size = count := by
  simp [start]

theorem getElem?_start (p : Modulus) (bits : Nat → Bool) (inputs : List Nat) {count i : Nat}
    (hi : i < count) : (start p bits inputs count)[i]? =
      some (if i ∈ inputs then .element (.ofBool p (bits i)) else .unset) := by
  simp [start, hi]

theorem start_succ_of_not_mem {p : Modulus} {bits : Nat → Bool} {inputs : List Nat} {count : Nat}
    (hcount : count ∉ inputs) :
    start p bits inputs (count + 1) = (start p bits inputs count).extend .unset := by
  simp [start, extend, Array.range_succ, hcount]

theorem start_succ_concat {p : Modulus} {bits : Nat → Bool} {inputs : List Nat} (count : Nat) :
    start p bits (inputs ++ [count]) (count + 1) =
      (start p bits inputs count).extend (.element (.ofBool p (bits count))) := by
  have hbefore : start p bits (inputs ++ [count]) count = start p bits inputs count := by
    unfold start
    apply Array.map_congr_left
    intro i hi
    have hne : i ≠ count := (Array.mem_range.mp hi).ne
    simp [hne]
  rw [← hbefore]
  simp [start, extend, Array.range_succ]

theorem assign_start {p : Modulus} {bits : Nat → Bool} {inputs : List Nat} {count i : Nat}
    (hi : i < count) :
    (start p bits inputs count).assign i (.element (.ofBool p (bits i))) =
      start p bits (inputs ++ [i]) count := by
  have hposition : (start p bits inputs count).position? i = some i := by
    rw [position?, if_pos (by omega), if_pos (by rw [size_start]; omega), Int.toNat_natCast]
  rw [assign, hposition]
  apply Array.ext_getElem?
  intro j
  rw [Array.getElem?_setIfInBounds]
  by_cases hj : j < count
  · rw [getElem?_start p bits inputs hj, getElem?_start p bits (inputs ++ [i]) hj]
    by_cases heq : i = j
    · simp [heq, size_start, hj]
    · simp [heq, Ne.symm heq]
  · have hne : i ≠ j := by omega
    rw [if_neg hne, Array.getElem?_eq_none (by rw [size_start]; omega),
      Array.getElem?_eq_none (by rw [size_start]; omega)]

end Assignment

/-- An evaluation that succeeds has read no entry that lacks a value. -/
theorem Combination.lacks_eq_false_of_evaluate {x : Combination} {assignment : Assignment} {e : Element}
    (hevaluate : x.evaluate assignment = .ok e) : ∀ i ∈ x.vars, assignment.lacks i = false := by
  have hterm {total next : Element} {entry : Int × Element}
      (h : addTerm assignment total entry = .ok next) : assignment.lacks entry.1 = false := by
    unfold addTerm at h
    unfold Assignment.lacks
    cases hvalue : assignment.valueAt? entry.1 with
    | none => rfl
    | some value =>
      rw [hvalue] at h
      cases value with
      | int n => rfl
      | element f => rfl
      | foreign kind => cases h
  unfold evaluate at hevaluate
  unfold vars
  generalize x.terms.entries = entries at hevaluate ⊢
  generalize x.constant = total at hevaluate
  induction entries generalizing total with
  | nil =>
    intro i hi
    cases hi
  | cons entry rest ih =>
    rw [List.foldlM_cons, bind_eq_ok_iff] at hevaluate
    obtain ⟨next, hnext, hrest⟩ := hevaluate
    rw [List.map_cons, List.forall_mem_cons]
    exact ⟨hterm hnext, ih next hrest⟩

theorem Combination.variable_of_var (p : Modulus) (index : Int) :
    Combination.variable? (var (.exact p) index) = some index := by
  have hnonzero : (Element.ofClass p 1).isZero = false := by
    rw [Bool.eq_false_iff, Ne, Element.isZero_ofClass]
    exact one_ne_zero
  have hzero : (Element.ofClass p 0).isZero = true := (Element.isZero_ofClass p 0).mpr rfl
  have hone : (Element.ofClass p 1).isOne = true := by
    simp [Element.ofClass, Element.isOne, Residue.isOne, ZMod.val_one]
  simp [ Combination.variable?, var, make, Terms.dropZeros, Terms.single, hnonzero, hzero, hone]

namespace ConstraintSystem

variable {p : Modulus} {bound : TermBound} {inputs : List Nat} {s : ConstraintSystem}

/-- A pass leaves a result alone that has a value already. -/
theorem solveStep_of_known {assignment : Assignment} {c : ProductConstraint} {index : Int}
    (hresult : Combination.variable? c.result = some index) (hknown : assignment.lacks index = false) :
    solveStep assignment c = .ok assignment := by
  unfold solveStep
  rw [hresult]
  simp only [hknown]
  rfl

/-- A pass gives the variable of a gate the value that the gate forces on it, whatever stands
    behind it in the assignment. -/
theorem solveStep_gate {a b : Combination} (ha : s.Declares a) (hb : s.Declares b)
    {before : Assignment} (hover : before.Over s.modulus) (hsize : before.size = s.numVars)
    (rest : Assignment) :
    solveStep (before.extend .unset ++ rest) ⟨a, b, s.nextVar⟩ =
      .ok (before.extend (s.product a b before) ++ rest) := by
  have hevaluate {x : Combination} (hx : s.Declares x) :
      x.evaluate (before.extend .unset ++ rest) =
        .ok (.ofClass s.modulus (x.denote s.modulus (before.classAt s.modulus))) := by
    have hagree : ∀ i ∈ x.vars, (before.extend .unset ++ rest).valueAt? i = before.valueAt? i := by
      intro i hi
      obtain ⟨hlo, hhi⟩ := hx.vars i hi
      rw [Assignment.extend_append]
      exact before.valueAt?_append_of_lt _ hlo (by omega)
    rw [Combination.evaluate_congr hagree]
    exact (Combination.evaluate_eq_ofClass_iff hover hx.over_field _).mpr ⟨hx.covered (by omega), rfl⟩
  have hresult : Combination.variable? s.nextVar = some (before.size : Int) := by
    rw [hsize]
    exact Combination.variable_of_var s.modulus s.numVars
  have hlacks : (before.extend .unset ++ rest).lacks before.size = true := by
    unfold Assignment.lacks
    rw [before.valueAt?_extend_append_size]
    rfl
  unfold solveStep
  simp only [hresult, hlacks, if_true, hevaluate ha, hevaluate hb]
  rw [← before.assign_extend_append rest .unset (s.product a b before), product]
  simp only [bind, Except.bind, Element.mul_ofClass]
  rfl

theorem Solves.next (hwell : s.WellFormed) {before : Assignment} (hbefore : s.Solves before)
    (z : ZMod s.modulus.size) : s.next.Solves (before.extend (.element (.ofClass s.modulus z))) := by
  obtain ⟨hover, hsize, hsat⟩ := hbefore
  constructor
  · exact Assignment.over_extend.mpr ⟨hover, z, rfl⟩
  · rw [Assignment.size_extend, hsize, next_numVars]
  · rw [isSatisfied_next, hwell.isSatisfied_extend hsize]
    exact hsat

/-- A solution in which the inputs have the given values. -/
structure SolvesWith (p : Modulus) (bits : Nat → Bool) (inputs : List Nat) (s : ConstraintSystem)
    (solution : Assignment) : Prop where
  solves : s.Solves solution
  inputs : ∀ i ∈ inputs, solution.valueAt? i = some (.element (.ofBool p (bits i)))

theorem SolvesWith.extend_input {bits : Nat → Bool} {t : ConstraintSystem} {before : Assignment}
    (h : SolvesWith p bits inputs s before) (hinputs : ∀ i ∈ inputs, i < s.numVars)
    (hsolves : t.Solves (before.extend (.element (.ofBool p (bits s.numVars))))) :
    SolvesWith p bits (inputs ++ [s.numVars]) t
      (before.extend (.element (.ofBool p (bits s.numVars)))) := by
  have hsize := h.solves.size_eq
  refine ⟨hsolves, fun i hi => ?_⟩
  rw [List.mem_append, List.mem_singleton] at hi
  obtain hi | rfl := hi
  · have hlt := hinputs i hi
    rw [before.valueAt?_extend_of_lt _ (by omega) (by omega)]
    exact h.inputs i hi
  · have hlast := before.valueAt?_extend_append_size #[] (.element (.ofBool p (bits s.numVars)))
    rwa [Array.append_empty, hsize] at hlast

/-- From the given bits of the inputs a pass ends in a solution. Entries that stand behind those
    of the variables stay as they are: they belong to variables that are yet to be declared. -/
structure PassEndsIn (p : Modulus) (bits : Nat → Bool) (inputs : List Nat) (s : ConstraintSystem)
    (solution : Assignment) : Prop where
  solves : SolvesWith p bits inputs s solution
  pass_eq : ∀ rest : Assignment,
    s.constraints.foldlM solveStep (.start p bits inputs s.numVars ++ rest) = .ok (solution ++ rest)

namespace PassEndsIn

variable {bits : Nat → Bool} {before : Assignment}

theorem empty (p : Modulus) (bound : TermBound) (bits : Nat → Bool) :
    PassEndsIn p bits [] (.empty p bound) #[] := by
  constructor
  · refine ⟨⟨?_, rfl, rfl⟩, ?_⟩
    · intro entry hmem
      simp at hmem
    · intro i hi
      cases hi
  · intro rest
    have hstart : Assignment.start p bits [] 0 = #[] := by simp [Assignment.start]
    simp only [ConstraintSystem.empty, hstart, Array.foldlM_empty]
    rfl

theorem declare (hbefore : PassEndsIn p bits inputs s before) (h : Circuit p bound inputs s) :
    PassEndsIn p bits (inputs ++ [s.numVars]) s.next
      (before.extend (.element (.ofBool p (bits s.numVars)))) := by
  obtain rfl := h.modulus_eq
  constructor
  · have hsolves := hbefore.solves.solves.next h.wellFormed
    exact hbefore.solves.extend_input (fun _ => h.lt_of_mem_inputs) (hsolves _)
  · intro rest
    rw [next_constraints, next_numVars, Assignment.start_succ_concat, Assignment.extend_append,
      Assignment.extend_append]
    exact hbefore.pass_eq _

/-- The booleanity constraint of an input has a result that has its value already. -/
theorem allocBool (hbefore : PassEndsIn p bits inputs s before) (h : Circuit p bound inputs s) :
    PassEndsIn p bits (inputs ++ [s.numVars]) s.withInput
      (before.extend (.element (.ofBool p (bits s.numVars)))) := by
  have hdeclared := hbefore.declare h
  obtain rfl := h.modulus_eq
  constructor
  · have hsolves := (solves_withInput_iff h.wellFormed (bits s.numVars) _).mpr
      ⟨before, hbefore.solves.solves, rfl⟩
    exact hbefore.solves.extend_input (fun _ => h.lt_of_mem_inputs) hsolves.1
  · intro rest
    have hknown : (before.extend (.element (.ofBool s.modulus (bits s.numVars))) ++ rest).lacks
        s.numVars = false := by
      unfold Assignment.lacks
      rw [← hbefore.solves.solves.size_eq, before.valueAt?_extend_append_size]
    have hstep := solveStep_of_known (c := booleanity s.modulus s.numVars)
      (Combination.variable_of_var s.modulus s.numVars) hknown
    rw [withInput_eq, push_constraints, push_numVars, Array.foldlM_push, hdeclared.pass_eq]
    exact hstep

theorem gate (hbefore : PassEndsIn p bits inputs s before) (h : Circuit p bound inputs s)
    {a b : Combination} (ha : s.Declares a) (hb : s.Declares b) :
    PassEndsIn p bits inputs (s.gate a b) (before.extend (s.product a b before)) := by
  have hover := hbefore.solves.solves.over_field
  have hsize := hbefore.solves.solves.size_eq
  constructor
  · constructor
    · exact (solves_gate_iff h.wellFormed ha hb _).mpr ⟨before, hbefore.solves.solves, rfl⟩
    · intro i hi
      have hlt := h.lt_of_mem_inputs hi
      rw [before.valueAt?_extend_of_lt _ (by omega) (by omega)]
      exact hbefore.solves.inputs i hi
  · intro rest
    have hfresh : s.numVars ∉ inputs := fun hmem => lt_irrefl _ (h.lt_of_mem_inputs hmem)
    have hstep := solveStep_gate ha hb hover hsize rest
    rw [Assignment.extend_append] at hstep
    rw [ConstraintSystem.gate, push_constraints, push_numVars, next_constraints, next_numVars,
      Array.foldlM_push, Assignment.start_succ_of_not_mem hfresh, Assignment.extend_append,
      hbefore.pass_eq]
    exact hstep

end PassEndsIn

theorem Circuit.exists_pass (h : Circuit p bound inputs s) (bits : Nat → Bool) :
    ∃ solution, PassEndsIn p bits inputs s solution := by
  induction h with
  | empty => exact ⟨_, .empty p bound bits⟩
  | declare h ih =>
    obtain ⟨before, hbefore⟩ := ih
    exact ⟨_, hbefore.declare h⟩
  | allocBool h ih =>
    obtain ⟨before, hbefore⟩ := ih
    exact ⟨_, hbefore.allocBool h⟩
  | gate h ha hb ih =>
    obtain ⟨before, hbefore⟩ := ih
    exact ⟨_, hbefore.gate h ha hb⟩

/-- What a pass is started with: for each input its bit. -/
def inputValues (bits : Nat → Bool) (inputs : List Nat) : List (Int × Number) :=
  inputs.map fun (i : Nat) => ((i : Int), .int (bits i).toNat)

theorem ofNumber_bit (p : Modulus) (b : Bool) :
    Element.ofNumber (.exact p) (.int b.toNat) = .ofBool p b := by
  rw [Element.ofNumber_int, Element.ofBool]
  cases b <;> simp

/-- Setting the inputs one by one makes the assignment at the start of the pass. -/
theorem solve_eq_foldlM (bits : Nat → Bool) (hinputs : ∀ i ∈ inputs, i < s.numVars) :
    s.solve (inputValues bits inputs) =
      s.constraints.foldlM solveStep (.start s.modulus bits inputs s.numVars) := by
  have hset : (inputValues bits inputs).foldl
      (fun (assignment : Assignment) input =>
        assignment.assign input.1 (.element (.ofNumber s.order input.2)))
      (Array.replicate s.numVars .unset) = .start s.modulus bits inputs s.numVars := by
    unfold inputValues
    induction inputs using List.reverseRecOn with
    | nil =>
      apply Array.ext_getElem?
      intro j
      by_cases hj : j < s.numVars <;> simp [Assignment.start, hj]
    | append_singleton inputs i ih =>
      rw [List.forall_mem_append, List.forall_mem_singleton] at hinputs
      rw [List.map_append, List.foldl_append, ih hinputs.1]
      simp only [List.map_cons, List.map_nil, List.foldl_cons, List.foldl_nil, order, ofNumber_bit]
      exact Assignment.assign_start hinputs.2
  unfold solve
  rw [hset]

/-- The system as it was when it had its first `k` constraints, but with all variables. -/
def upTo (s : ConstraintSystem) (k : Nat) : ConstraintSystem :=
  { s with constraints := s.constraints.take k }

/-- A pass that succeeds has read nothing that lacked a value: where it came to a constraint
    whose result was still to be computed, all variables of its operands had values. -/
theorem exists_solve_upTo {values : List (Int × Number)} {solution : Assignment}
    (hsolve : s.solve values = .ok solution) {k : Nat} {c : ProductConstraint}
    (hc : s.constraints[k]? = some c) :
    ∃ partway, (s.upTo k).solve values = .ok partway ∧ ∀ v, Combination.variable? c.result = some v →
      partway.lacks v = true → ∀ x ∈ [c.left, c.right], ∀ i ∈ x.vars, partway.lacks i = false := by
  obtain ⟨hk, hc⟩ := List.getElem?_eq_some_iff.mp (Array.getElem?_toList ▸ hc)
  unfold solve at hsolve ⊢
  simp only [← Array.foldlM_toList] at hsolve ⊢
  rw [← List.take_append_drop k s.constraints.toList, List.drop_eq_getElem_cons hk, hc,
    List.foldlM_append, bind_eq_ok_iff] at hsolve
  obtain ⟨partway, hpartway, hrest⟩ := hsolve
  rw [List.foldlM_cons, bind_eq_ok_iff] at hrest
  obtain ⟨next, hnext, -⟩ := hrest
  refine ⟨partway, ?_, ?_⟩
  · simpa [upTo, order, List.extract] using hpartway
  · intro v hv hlacks
    unfold solveStep at hnext
    simp only [hv, hlacks, if_true] at hnext
    obtain ⟨a, ha, hnext⟩ := bind_eq_ok_iff.mp hnext
    obtain ⟨b, hb, -⟩ := bind_eq_ok_iff.mp hnext
    simp only [List.forall_mem_cons, List.not_mem_nil, false_implies, implies_true, and_true]
    exact ⟨Combination.lacks_eq_false_of_evaluate ha, Combination.lacks_eq_false_of_evaluate hb⟩

end ConstraintSystem

end WordCircuit
