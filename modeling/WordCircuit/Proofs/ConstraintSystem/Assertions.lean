import WordCircuit.Proofs.ConstraintSystem.Connectives

namespace WordCircuit

/-- Where the three sides of a constraint have values, it holds exactly if the product
    of the first two is the third. -/
theorem ProductConstraint.holds_iff_of_evaluate {p : Modulus} {assignment : Assignment}
    {a b c : Combination} {x y z : ZMod p.size} (ha : a.evaluate assignment = .ok (.ofClass p x))
    (hb : b.evaluate assignment = .ok (.ofClass p y))
    (hc : c.evaluate assignment = .ok (.ofClass p z)) :
    (ProductConstraint.mk a b c).holds assignment = .ok true ↔ x * y = z := by
  have hholds : (ProductConstraint.mk a b c).holds assignment =
      .ok ((Element.ofClass p (x * y)).same (.ofClass p z)) := by
    simp only [holds, ha, hb, hc, bind, Except.bind, Element.mul_ofClass, pure, Except.pure]
  rw [hholds, ← Element.same_ofClass, Except.ok.injEq]

namespace ConstraintSystem

/-- All that happened from `s` to `t` is that constraints between handles were posed,
    and at given assignments they say that `condition` is the case. -/
structure Asserts (given : Assignment → Prop) (s t : ConstraintSystem) (condition : Prop) : Prop where
  precedes : s.Precedes t
  numVars_eq : t.numVars = s.numVars
  wellFormed : s.WellFormed → t.WellFormed
  isSatisfied_iff : ∀ assignment, given assignment → assignment.Over s.modulus →
    (t.isSatisfied assignment = .ok true ↔ s.isSatisfied assignment = .ok true ∧ condition)

section

variable {given : Assignment → Prop} {s t r : ConstraintSystem} {condition condition' : Prop}

theorem asserts_refl : Asserts given s s True :=
  ⟨s.precedes_refl, rfl, id, fun _ _ _ => (and_true _).symm ▸ Iff.rfl⟩

theorem Asserts.trans (hst : Asserts given s t condition) (htr : Asserts given t r condition') :
    Asserts given s r (condition ∧ condition') := by
  refine ⟨hst.precedes.trans htr.precedes, htr.numVars_eq.trans hst.numVars_eq,
    fun hwell => htr.wellFormed (hst.wellFormed hwell), fun assignment hgiven hover => ?_⟩
  rw [htr.isSatisfied_iff assignment hgiven (hst.precedes.modulus_eq ▸ hover),
    hst.isSatisfied_iff assignment hgiven hover, and_assoc]

theorem Asserts.congr (h : Asserts given s t condition) (hiff : condition ↔ condition') :
    Asserts given s t condition' :=
  ⟨h.precedes, h.numVars_eq, h.wellFormed, fun assignment hgiven hover => by
    rw [h.isSatisfied_iff assignment hgiven hover, hiff]⟩

/-- A constraint asserts that the product of the values of its first two sides is the
    value of the third. -/
theorem asserts_push {a b c : Combination} {x y z : ZMod s.modulus.size}
    (ha : Evaluates given s a x) (hb : Evaluates given s b y) (hc : Evaluates given s c z) :
    Asserts given s (s.push ⟨a, b, c⟩) (x * y = z) := by
  refine ⟨s.precedes_push _, rfl, fun hwell => hwell.push ha.1 hb.1 hc.1, ?_⟩
  intro assignment hgiven hover
  rw [isSatisfied_push_iff]
  apply and_congr_right
  intro hsat
  exact ProductConstraint.holds_iff_of_evaluate (ha.2 assignment hgiven hover hsat)
    (hb.2 assignment hgiven hover hsat) (hc.2 assignment hgiven hover hsat)

theorem bit_inj {u v : Bool} : s.bit u = s.bit v ↔ u = v := by
  cases u <;> cases v <;> simp [bit]

theorem exec_assertTrue (p : Modulus) {x : Combination} {u : Bool}
    (hx : (bitReading given).Reads s x u) :
    ∃ t, (assertTrue (table p) x).exec s = (.ok (), t) ∧ Asserts given s t (u = true) := by
  have hone : Evaluates given s _ 1 := evaluates_ofElement 1
  have hasserts := asserts_push hx hone hone
  refine ⟨_, ?_, hasserts.congr ?_⟩
  · rw [assertTrue, Action.exec_liftM_bind_of_ok (require_bool p (by simp) _),
      Action.exec_bind_of_ok (exec_one s), Action.exec_bind_of_ok (exec_one s)]
    exact exec_satisfy hx.1 hone.1 hone.1
  · rw [mul_one]
    cases u <;> simp [bit]

theorem exec_assertEq (p : Modulus) {x y : Combination} {u v : Bool}
    (hx : (bitReading given).Reads s x u) (hy : (bitReading given).Reads s y v) :
    ∃ t, (assertEq (table p) .bool x y).exec s = (.ok (), t) ∧ Asserts given s t (u = v) := by
  have hone : Evaluates given s _ 1 := evaluates_ofElement 1
  have hzero : Evaluates given s (.zero s.order) 0 := by
    rw [Combination.zero, order, Element.zero_exact]
    exact evaluates_ofElement 0
  obtain ⟨difference, hsub, hcombines⟩ := Combination.exists_sub hx.1.over_field hy.1.over_field
  have hdifference := hx.combines hy hcombines
  have hasserts := asserts_push hdifference hone hzero
  refine ⟨_, ?_, hasserts.congr ?_⟩
  · rw [assertEq, Action.exec_liftM_bind_of_ok (require_bool p (by simp) _),
      Action.exec_liftM_bind_of_ok hsub, Action.exec_bind_of_ok (exec_one s),
      Action.exec_bind_of_ok (Action.exec_get s)]
    exact exec_satisfy hdifference.1 hone.1 hzero.1
  · rw [mul_one, sub_eq_zero, bit_inj]

/-- Pairs of bits that are asserted to be equal one after the other are asserted to be
    equal all together. -/
theorem exec_forM_assertEq (p : Modulus) {f g : Nat → Bool} {count : Nat} :
    ∀ {xs ys : List Combination} {s : ConstraintSystem}, (bitReading given).Spells s xs count f →
      (bitReading given).Spells s ys count g →
      ∃ t, ((xs.zip ys).forM fun pair => assertEq (table p) .bool pair.1 pair.2).exec s = (.ok (), t) ∧
        Asserts given s t (∀ i < count, f i = g i) := by
  induction count generalizing f g with
  | zero =>
    intro xs ys s hxs _
    rw [List.eq_nil_of_length_eq_zero hxs.length_eq]
    exact ⟨s, rfl, asserts_refl.congr (by simp)⟩
  | succ count ih =>
    intro xs ys s hxs hys
    obtain ⟨x, xs, rfl⟩ := List.exists_cons_of_length_eq_add_one hxs.length_eq
    obtain ⟨y, ys, rfl⟩ := List.exists_cons_of_length_eq_add_one hys.length_eq
    obtain ⟨hx, hxs⟩ := Reading.spells_cons_iff.mp hxs
    obtain ⟨hy, hys⟩ := Reading.spells_cons_iff.mp hys
    obtain ⟨t, hexec, hfirst⟩ := exec_assertEq p hx hy
    have hlater {zs : List Combination} {h : Nat → Bool} (hzs : (bitReading given).Spells s zs count h) :
        (bitReading given).Spells t zs count h :=
      ⟨hzs.length_eq, fun i hi => (hzs.reads i hi).mono hfirst.precedes fun _ => id⟩
    obtain ⟨u, hrest, hothers⟩ := ih (hlater hxs) (hlater hys)
    refine ⟨u, ?_, (hfirst.trans hothers).congr ?_⟩
    · rw [List.zip_cons_cons]
      exact (Action.exec_bind_of_ok hexec).trans hrest
    · constructor
      · rintro ⟨hzero, hsucc⟩ i hi
        cases i with
        | zero => exact hzero
        | succ i => exact hsucc i (by omega)
      · intro hall
        exact ⟨hall 0 (by omega), fun i hi => hall (i + 1) (by omega)⟩

end

end ConstraintSystem

end WordCircuit
