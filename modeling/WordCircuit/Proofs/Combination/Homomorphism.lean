import WordCircuit.Proofs.Combination.Dimension

namespace WordCircuit.Combination

/-- The combination is over the field, it has no coefficient that is zero, and it has a value at
    the assignment. -/
structure HasValue (p : Modulus) (assignment : Assignment) (x : Combination) (z : ZMod p.size) :
    Prop where
  over_field : x.Over p
  nonzero : ∀ entry ∈ x.terms.entries, entry.2.residue p ≠ 0
  evaluate_eq : x.evaluate assignment = .ok (.ofClass p z)

theorem Combines.hasValue {p : Modulus} {f : ZMod p.size → ZMod p.size → ZMod p.size}
    {x y z : Combination} (h : Combines p f x y z) {assignment : Assignment}
    (hover : assignment.Over p) {a b : ZMod p.size} (hx : HasValue p assignment x a)
    (hy : HasValue p assignment y b) : HasValue p assignment z (f a b) := by
  constructor
  · exact h.over_field
  · exact h.over_field.residue_ne_zero
  · exact h.evaluate_eq hover hx.over_field hy.over_field hx.evaluate_eq hy.evaluate_eq

/-- An assignment that reaches up to the dimension of a combination gives it a value. -/
theorem exists_hasValue {p : Modulus} {x : Combination} (hx : x.Over p) (hvars : ∀ i ∈ x.vars, 0 ≤ i)
    {assignment : Assignment} (hover : assignment.Over p) (hdim : x.dim ≤ assignment.size) :
    ∃ z, HasValue p assignment x z := by
  have hcovered := (covered_iff_dim_le hvars assignment).mpr hdim
  exact ⟨_, hx, hx.residue_ne_zero, (evaluate_eq_ok_iff hover hx _).mpr ⟨hcovered, rfl⟩⟩

/-- Combinations over different fields do not pass the check that sums and differences begin
    with. -/
theorem exists_checkOrder_error {p q : Modulus} (hne : p ≠ q) {x y : Combination} (hx : x.Over p)
    (hy : y.Over q) : ∃ fault, x.checkOrder y = .error fault ∧ fault.kind = .value := by
  have hother : y.order.same x.order = false := by
    rw [hx.order, hy.order]
    simp [Order.same, Ne.symm hne]
  unfold checkOrder
  rw [hother]
  exact ⟨_, rfl, rfl⟩

/-- Evaluation is a homomorphism, over prime and composite moduli alike. At an assignment that
    reaches up to the dimensions of two combinations, both have values, and their sum, their
    difference, the negative and the multiple by a scalar are made without a fault, have no zero
    coefficient, and have the values that these operations give on the values of the parts. Over
    different fields there are no sums and differences. -/
theorem evaluate_homomorphism (p : Modulus) {x y : Combination} (hx : x.Over p) (hy : y.Over p)
    (hvarsX : ∀ i ∈ x.vars, 0 ≤ i) (hvarsY : ∀ i ∈ y.vars, 0 ≤ i) {scalar : Operand}
    {factor : ZMod p.size} (hscalar : scalar.StandsFor p factor) {assignment : Assignment}
    (hover : assignment.Over p) (hdim : max x.dim y.dim ≤ assignment.size) :
    (∃ a b, HasValue p assignment x a ∧ HasValue p assignment y b ∧
      (∃ sum, x.add y = .ok sum ∧ HasValue p assignment sum (a + b)) ∧
      (∃ difference, x.sub y = .ok difference ∧ HasValue p assignment difference (a - b)) ∧
      HasValue p assignment x.neg (-a) ∧
      ∃ multiple, x.scale scalar = .ok multiple ∧ HasValue p assignment multiple (a * factor)) ∧
    ∀ (q : Modulus) (other : Combination), q ≠ p → other.Over q → ∃ fault, fault.kind = .value ∧
      x.add other = .error fault ∧ x.sub other = .error fault := by
  constructor
  · obtain ⟨a, ha⟩ := exists_hasValue hx hvarsX hover (by omega)
    obtain ⟨b, hb⟩ := exists_hasValue hy hvarsY hover (by omega)
    obtain ⟨sum, hsum, hcombinesSum⟩ := exists_add hx hy
    obtain ⟨difference, hdifference, hcombinesDifference⟩ := exists_sub hx hy
    obtain ⟨multiple, hmultiple, hcombinesMultiple⟩ := exists_scale hx hscalar
    refine ⟨a, b, ha, hb, ⟨sum, hsum, ?_⟩, ⟨difference, hdifference, ?_⟩, ?_, multiple, hmultiple, ?_⟩
    · exact hcombinesSum.hasValue hover ha hb
    · exact hcombinesDifference.hasValue hover ha hb
    · exact (combines_neg hx).hasValue hover ha ha
    · exact hcombinesMultiple.hasValue hover ha ha
  · intro q other hne hother
    obtain ⟨fault, hcheck, hkind⟩ := exists_checkOrder_error (Ne.symm hne) hx hother
    refine ⟨fault, hkind, ?_, ?_⟩
    · rw [add, hcheck]
      rfl
    · rw [sub, hcheck]
      rfl

/-- Values for three variables over the field with seven elements. -/
def threeValues : Assignment :=
  #[.element (.ofClass .seven 1), .element (.ofClass .seven 2), .element (.ofClass .seven 6)]

/-- The first and the third variable there, whose values cancel each other, and the third times
    the element three. -/
theorem evaluate_homomorphism_at_threeValues :
    threeValues.Over .seven ∧ ∃ sum negative : Combination,
      (var (.exact .seven) 2).add (var (.exact .seven) 0) = .ok sum ∧
        sum.evaluate threeValues = .ok (.ofClass .seven 0) ∧
        (var (.exact .seven) 2).neg.evaluate threeValues = .ok (.ofClass .seven 1) ∧
        (var (.exact .seven) 2).scale (.element (.ofClass .seven 3)) = .ok negative ∧
        negative.evaluate threeValues = .ok (.ofClass .seven 4) := by
  have hover : threeValues.Over .seven := by
    intro entry hentry
    simp only [threeValues, List.mem_toArray, List.mem_cons, List.not_mem_nil, or_false] at hentry
    rcases hentry with rfl | rfl | rfl <;> exact ⟨_, rfl⟩
  have hvars (i : Nat) : ∀ j ∈ (var (.exact .seven) i).vars, 0 ≤ j := by
    intro j hj
    rw [vars_var, List.mem_singleton] at hj
    omega
  obtain ⟨⟨a, b, ha, hb, ⟨sum, hsum, hsumValue⟩, -, hnegValue, multiple, hmultiple, hmultipleValue⟩, -⟩ :=
    evaluate_homomorphism .seven (over_var .seven 2) (over_var .seven 0) (hvars 2) (hvars 0)
      (.element 3) hover (by decide)
  have ha6 : a = 6 := Element.ofClass_inj.mp (Except.ok.inj (ha.evaluate_eq.symm.trans rfl))
  have hb1 : b = 1 := Element.ofClass_inj.mp (Except.ok.inj (hb.evaluate_eq.symm.trans rfl))
  subst ha6 hb1
  exact ⟨hover, sum, multiple, hsum, hsumValue.evaluate_eq, hnegValue.evaluate_eq, hmultiple,
    hmultipleValue.evaluate_eq⟩

end WordCircuit.Combination
