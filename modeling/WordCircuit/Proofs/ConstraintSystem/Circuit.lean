import WordCircuit.Proofs.ConstraintSystem.Inputs

namespace WordCircuit.ConstraintSystem

/-- The constraint that keeps a variable to zero and one. -/
def booleanity (p : Modulus) (v : Nat) : ProductConstraint :=
  ⟨.var (.exact p) v, .var (.exact p) v, .var (.exact p) v⟩

theorem withInput_eq (s : ConstraintSystem) :
    s.withInput = s.next.push (booleanity s.modulus s.numVars) :=
  rfl

/-- A system is made from nothing by declaring inputs, each with its booleanity constraint or
    without, and by gates between handles. The inputs are listed in the order of their
    declaration. -/
inductive Circuit (p : Modulus) (bound : TermBound) : List Nat → ConstraintSystem → Prop where
  | empty : Circuit p bound [] (.empty p bound)
  | declare {inputs : List Nat} {s : ConstraintSystem} (h : Circuit p bound inputs s) :
      Circuit p bound (inputs ++ [s.numVars]) s.next
  | allocBool {inputs : List Nat} {s : ConstraintSystem} (h : Circuit p bound inputs s) :
      Circuit p bound (inputs ++ [s.numVars]) s.withInput
  | gate {inputs : List Nat} {s : ConstraintSystem} {a b : Combination}
      (h : Circuit p bound inputs s) (ha : s.Declares a) (hb : s.Declares b) :
      Circuit p bound inputs (s.gate a b)

/-- The variable is an input or the result of one of the first `k` constraints. -/
def Known (p : Modulus) (inputs : List Nat) (s : ConstraintSystem) (k : Nat) (i : Int) : Prop :=
  (∃ input ∈ inputs, i = (input : Int)) ∨
    ∃ j < k, ∃ d : ProductConstraint, s.constraints[j]? = some d ∧ d.result = .var (.exact p) i

/-- The constraint at position `k` computes the variable `v`, which is no input and is computed
    nowhere else. It computes it from inputs and from what constraints before it compute. -/
structure Computes (p : Modulus) (inputs : List Nat) (s : ConstraintSystem) (k : Nat)
    (c : ProductConstraint) (v : Nat) : Prop where
  result_eq : c.result = .var (.exact p) v
  not_input : v ∉ inputs
  unique : ∀ (j : Nat) (d : ProductConstraint), s.constraints[j]? = some d →
    (v : Int) ∈ d.result.vars → j = k
  left_known : ∀ i ∈ c.left.vars, Known p inputs s k i
  right_known : ∀ i ∈ c.right.vars, Known p inputs s k i

section Growth

variable {p : Modulus} {inputs inputs' : List Nat} {s t : ConstraintSystem} {k : Nat}

theorem push_getElem?_eq_some_iff {c d : ProductConstraint} {j : Nat} :
    (s.push c).constraints[j]? = some d ↔
      s.constraints[j]? = some d ∨ j = s.constraints.size ∧ d = c := by
  rw [push_constraints, Array.getElem?_push]
  by_cases hj : j = s.constraints.size
  · rw [if_pos hj, hj, Array.getElem?_eq_none le_rfl]
    simp [eq_comm]
  · simp [hj]

theorem withInput_getElem?_eq_some_iff {d : ProductConstraint} {j : Nat} :
    s.withInput.constraints[j]? = some d ↔
      s.constraints[j]? = some d ∨ j = s.constraints.size ∧ d = booleanity s.modulus s.numVars := by
  rw [withInput_eq, push_getElem?_eq_some_iff, next_constraints]

theorem gate_getElem?_eq_some_iff {a b : Combination} {d : ProductConstraint} {j : Nat} :
    (s.gate a b).constraints[j]? = some d ↔
      s.constraints[j]? = some d ∨ j = s.constraints.size ∧ d = ⟨a, b, s.nextVar⟩ := by
  rw [ConstraintSystem.gate, push_getElem?_eq_some_iff, next_constraints]

/-- The constraints of one system stand in another at the same positions. -/
def KeptIn (s t : ConstraintSystem) : Prop :=
  ∀ (j : Nat) (d : ProductConstraint), s.constraints[j]? = some d → t.constraints[j]? = some d

theorem keptIn_next (s : ConstraintSystem) : s.KeptIn s.next := by
  intro j d hd
  exact hd

theorem keptIn_withInput (s : ConstraintSystem) : s.KeptIn s.withInput := by
  intro j d hd
  rw [withInput_getElem?_eq_some_iff]
  exact .inl hd

theorem keptIn_gate (s : ConstraintSystem) (a b : Combination) : s.KeptIn (s.gate a b) := by
  intro j d hd
  rw [gate_getElem?_eq_some_iff]
  exact .inl hd

theorem Known.mono {k' : Nat} {i : Int} (h : Known p inputs s k i) (hinputs : inputs ⊆ inputs')
    (hkept : s.KeptIn t) (hle : k ≤ k') : Known p inputs' t k' i := by
  obtain ⟨input, hinput, heq⟩ | ⟨j, hj, d, hd, hresult⟩ := h
  · exact .inl ⟨input, hinputs hinput, heq⟩
  · exact .inr ⟨j, by omega, d, hkept j d hd, hresult⟩

/-- More constraints and more inputs do not take away what a constraint computes, if neither
    of them touches the variable. -/
theorem Computes.mono {c : ProductConstraint} {v : Nat} (h : Computes p inputs s k c v)
    (hinputs : inputs ⊆ inputs') (hv : v ∉ inputs') (hkept : s.KeptIn t)
    (hnew : ∀ (j : Nat) (d : ProductConstraint), t.constraints[j]? = some d →
      (v : Int) ∈ d.result.vars → s.constraints[j]? = some d) :
    Computes p inputs' t k c v := by
  constructor
  · exact h.result_eq
  · exact hv
  · intro j d hd hmem
    exact h.unique j d (hnew j d hd hmem) hmem
  · exact fun i hi => (h.left_known i hi).mono hinputs hkept le_rfl
  · exact fun i hi => (h.right_known i hi).mono hinputs hkept le_rfl

end Growth

namespace Circuit

variable {p : Modulus} {bound : TermBound} {inputs : List Nat} {s t : ConstraintSystem}

theorem of_extends (h : Circuit p bound inputs s) (hextends : s.Extends t) :
    Circuit p bound inputs t := by
  induction hextends with
  | refl => exact h
  | gate _ ha hb ih => exact ih.gate ha hb

theorem modulus_eq (h : Circuit p bound inputs s) : s.modulus = p := by
  induction h with
  | empty => rfl
  | declare _ ih => exact ih
  | allocBool _ ih => exact ih
  | gate _ _ _ ih => exact ih

theorem wellFormed (h : Circuit p bound inputs s) : s.WellFormed := by
  induction h with
  | empty => exact wellFormed_empty p bound
  | declare _ ih => exact ih.next
  | allocBool _ ih => exact ih.withInput
  | gate _ ha hb ih => exact (Extends.refl.gate ha hb).wellFormed ih

theorem lt_of_mem_inputs (h : Circuit p bound inputs s) {i : Nat} (hi : i ∈ inputs) :
    i < s.numVars := by
  have hconcat {inputs : List Nat} {n : Nat} (hlt : i ∈ inputs → i < n) (hi : i ∈ inputs ++ [n]) :
      i < n + 1 := by
    obtain hi | hi := List.mem_append.mp hi
    · exact Nat.lt_succ_of_lt (hlt hi)
    · rw [List.mem_singleton.mp hi]
      exact Nat.lt_succ_self n
  induction h with
  | empty => cases hi
  | declare _ ih => exact hconcat ih hi
  | allocBool _ ih => exact hconcat ih hi
  | gate _ _ _ ih =>
    rw [gate_numVars]
    exact Nat.lt_succ_of_lt (ih hi)

theorem nextVar_eq (h : Circuit p bound inputs s) : s.nextVar = .var (.exact p) s.numVars := by
  rw [nextVar, order, h.modulus_eq]

/-- The result of a constraint mentions no variable that is yet to be declared. -/
theorem result_vars_lt (h : Circuit p bound inputs s) {j : Nat} {d : ProductConstraint}
    (hd : s.constraints[j]? = some d) {i : Int} (hi : i ∈ d.result.vars) : i < s.numVars := by
  obtain ⟨-, -, hresult⟩ := h.wellFormed d (Array.mem_of_getElem? hd)
  exact (hresult.vars i hi).2

/-- Every variable is an input or the result of a constraint. -/
theorem known (h : Circuit p bound inputs s) {i : Int} (hlo : 0 ≤ i) (hhi : i < s.numVars) :
    Known p inputs s s.constraints.size i := by
  induction h with
  | empty =>
    simp only [ConstraintSystem.empty] at hhi
    omega
  | @declare inputs s h ih =>
    rw [next_numVars] at hhi
    by_cases hlt : i < s.numVars
    · exact (ih hlt).mono (List.subset_append_left _ _) s.keptIn_next le_rfl
    · exact .inl ⟨s.numVars, List.mem_append_right _ List.mem_cons_self, by omega⟩
  | @allocBool inputs s h ih =>
    rw [withInput_eq, push_numVars, next_numVars] at hhi
    by_cases hlt : i < s.numVars
    · refine (ih hlt).mono (List.subset_append_left _ _) s.keptIn_withInput ?_
      simp [withInput_eq]
    · exact .inl ⟨s.numVars, List.mem_append_right _ List.mem_cons_self, by omega⟩
  | @gate inputs s a b h ha hb ih =>
    rw [gate_numVars] at hhi
    by_cases hlt : i < s.numVars
    · refine (ih hlt).mono (List.Subset.refl _) (s.keptIn_gate a b) ?_
      simp [ConstraintSystem.gate]
    · obtain rfl : i = s.numVars := by omega
      refine .inr ⟨s.constraints.size, ?_, ⟨a, b, s.nextVar⟩, ?_, h.nextVar_eq⟩
      · simp [ConstraintSystem.gate]
      · rw [gate_getElem?_eq_some_iff]
        exact .inr ⟨rfl, rfl⟩

/-- A new gate computes the variable that it declares. -/
theorem computes_gate (h : Circuit p bound inputs s) {a b : Combination} (ha : s.Declares a)
    (hb : s.Declares b) :
    Computes p inputs (s.gate a b) s.constraints.size ⟨a, b, s.nextVar⟩ s.numVars := by
  have hknown {x : Combination} (hx : s.Declares x) :
      ∀ i ∈ x.vars, Known p inputs (s.gate a b) s.constraints.size i := by
    intro i hi
    obtain ⟨hlo, hhi⟩ := hx.vars i hi
    exact (h.known hlo hhi).mono (List.Subset.refl _) (s.keptIn_gate a b) le_rfl
  constructor
  · exact h.nextVar_eq
  · intro hmem
    exact lt_irrefl _ (h.lt_of_mem_inputs hmem)
  · intro j d hd hmem
    obtain hd | ⟨hj, -⟩ := gate_getElem?_eq_some_iff.mp hd
    · exact absurd (h.result_vars_lt hd hmem) (lt_irrefl _)
    · exact hj
  · exact hknown ha
  · exact hknown hb

/-- What a constraint does lies below the variable that is declared next, so neither this
    variable as an input nor constraints that have it as their result are in its way. -/
theorem booleanity_or_computes_of_grows (h : Circuit p bound inputs s) {k : Nat}
    {c : ProductConstraint} (hc : s.constraints[k]? = some c)
    (hplace : (∃ v ∈ inputs, c = booleanity p v) ∨ ∃ v, Computes p inputs s k c v)
    {inputs' : List Nat} (hinputs : inputs ⊆ inputs')
    (hinputs' : ∀ i ∈ inputs', i ∈ inputs ∨ i = s.numVars) (hkept : s.KeptIn t)
    (hnew : ∀ (j : Nat) (d : ProductConstraint), t.constraints[j]? = some d →
      s.constraints[j]? = some d ∨ d.result = .var (.exact p) s.numVars) :
    (∃ v ∈ inputs', c = booleanity p v) ∨ ∃ v, Computes p inputs' t k c v := by
  obtain ⟨v, hv, hbooleanity⟩ | ⟨v, hcomputes⟩ := hplace
  · exact .inl ⟨v, hinputs hv, hbooleanity⟩
  · have hlt : (v : Int) < s.numVars := by
      apply h.result_vars_lt hc
      rw [hcomputes.result_eq, Combination.vars_var]
      exact List.mem_singleton_self _
    refine .inr ⟨v, hcomputes.mono hinputs ?_ hkept ?_⟩
    · intro hv
      obtain hv | hv := hinputs' v hv
      · exact hcomputes.not_input hv
      · omega
    · intro j d hd hmem
      obtain hd | hresult := hnew j d hd
      · exact hd
      · rw [hresult, Combination.vars_var, List.mem_singleton] at hmem
        omega

/-- A constraint of a circuit either keeps an input to zero and one, or computes a variable. -/
theorem booleanity_or_computes (h : Circuit p bound inputs s) {k : Nat} {c : ProductConstraint}
    (hc : s.constraints[k]? = some c) :
    (∃ v ∈ inputs, c = booleanity p v) ∨ ∃ v, Computes p inputs s k c v := by
  have hinput {inputs : List Nat} {n : Nat} : ∀ i ∈ inputs ++ [n], i ∈ inputs ∨ i = n := by
    intro i hi
    rwa [List.mem_append, List.mem_singleton] at hi
  induction h with
  | empty => simp [ConstraintSystem.empty] at hc
  | @declare inputs s h ih =>
    apply h.booleanity_or_computes_of_grows hc (ih hc) (List.subset_append_left _ _) hinput s.keptIn_next
    intro j d hd
    exact .inl hd
  | @allocBool inputs s h ih =>
    have hinputs : inputs ⊆ inputs ++ [s.numVars] := List.subset_append_left _ _
    obtain hc | ⟨-, rfl⟩ := withInput_getElem?_eq_some_iff.mp hc
    · apply h.booleanity_or_computes_of_grows hc (ih hc) hinputs hinput s.keptIn_withInput
      intro j d hd
      obtain hd | ⟨-, rfl⟩ := withInput_getElem?_eq_some_iff.mp hd
      · exact .inl hd
      · rw [h.modulus_eq]
        exact .inr rfl
    · rw [h.modulus_eq]
      exact .inl ⟨s.numVars, List.mem_append_right _ (List.mem_singleton_self _), rfl⟩
  | @gate inputs s a b h ha hb ih =>
    obtain hc | ⟨rfl, rfl⟩ := gate_getElem?_eq_some_iff.mp hc
    · have hinputs : ∀ i ∈ inputs, i ∈ inputs ∨ i = s.numVars := fun i hi => .inl hi
      apply h.booleanity_or_computes_of_grows hc (ih hc) (List.Subset.refl _) hinputs (s.keptIn_gate a b)
      intro j d hd
      obtain hd | ⟨-, rfl⟩ := gate_getElem?_eq_some_iff.mp hd
      · exact .inl hd
      · exact .inr h.nextVar_eq
    · exact .inr ⟨s.numVars, h.computes_gate ha hb⟩

end Circuit

end WordCircuit.ConstraintSystem
