import WordCircuit.Proofs.ConstraintSystem.Gate
import WordCircuit.Proofs.Coupling

namespace WordCircuit

namespace Combination

/-- Two combinations over one order that have the same coefficients, and that differ at
    most in their constants. -/
structure Parallel (x y : Combination) : Prop where
  order_eq : x.order = y.order
  terms_eq : x.terms = y.terms

theorem parallel_refl (x : Combination) : x.Parallel x :=
  ⟨rfl, rfl⟩

theorem parallel_make {order : Order} (constant constant' : Element) (terms : Terms) :
    (make order constant terms).Parallel (make order constant' terms) :=
  ⟨rfl, rfl⟩

namespace Parallel

variable {x x' y y' z z' : Combination}

/-- What is put together from the same terms is parallel, whatever checks are made before
    and whatever constants are computed. -/
theorem of_make {check check' : Except Fault Unit} {terms terms' : Except Fault Terms}
    {constant constant' : Except Fault Element} {order order' : Order} (horder : order = order')
    (hterms : terms = terms')
    (hz : (do check; let t ← terms; let c ← constant; return make order c t) = .ok z)
    (hz' : (do check'; let t ← terms'; let c ← constant'; return make order' c t) = .ok z') :
    z.Parallel z' := by
  obtain ⟨⟨⟩, -, hz⟩ := bind_eq_ok_iff.mp hz
  obtain ⟨⟨⟩, -, hz'⟩ := bind_eq_ok_iff.mp hz'
  obtain ⟨merged, hmerged, hz⟩ := bind_eq_ok_iff.mp hz
  obtain ⟨merged', hmerged', hz'⟩ := bind_eq_ok_iff.mp hz'
  obtain ⟨value, -, hz⟩ := bind_eq_ok_iff.mp hz
  obtain ⟨value', -, hz'⟩ := bind_eq_ok_iff.mp hz'
  obtain rfl := Except.ok.inj hz
  obtain rfl := Except.ok.inj hz'
  rw [hterms] at hmerged
  obtain rfl := Except.ok.inj (hmerged.symm.trans hmerged')
  exact horder ▸ parallel_make value value' merged

/-- The coefficients of a sum come from the coefficients of its parts alone. -/
theorem add (hx : x.Parallel x') (hy : y.Parallel y') (hz : x.add y = .ok z)
    (hz' : x'.add y' = .ok z') : z.Parallel z' :=
  of_make hx.order_eq (by rw [hx.terms_eq, hy.terms_eq]) hz hz'

theorem sub (hx : x.Parallel x') (hy : y.Parallel y') (hz : x.sub y = .ok z)
    (hz' : x'.sub y' = .ok z') : z.Parallel z' :=
  of_make hx.order_eq (by rw [hx.terms_eq, hy.terms_eq]) hz hz'

theorem scale (hx : x.Parallel x') {n : Int} (hz : x.scale (.int n) = .ok z)
    (hz' : x'.scale (.int n) = .ok z') : z.Parallel z' := by
  obtain ⟨constant, -, hz⟩ := bind_eq_ok_iff.mp hz
  obtain ⟨constant', -, hz'⟩ := bind_eq_ok_iff.mp hz'
  obtain ⟨mapped, hmapped, hz⟩ := bind_eq_ok_iff.mp hz
  obtain ⟨mapped', hmapped', hz'⟩ := bind_eq_ok_iff.mp hz'
  obtain rfl := Except.ok.inj hz
  obtain rfl := Except.ok.inj hz'
  rw [hx.terms_eq] at hmapped
  obtain rfl := Except.ok.inj (hmapped.symm.trans hmapped')
  exact hx.order_eq ▸ parallel_make constant constant' mapped

end Parallel

end Combination

open WordCircuit.Action (Couples)

/-- Two constraints whose parts differ at most in their constants. -/
structure ProductConstraint.Parallel (c d : ProductConstraint) : Prop where
  left : c.left.Parallel d.left
  right : c.right.Parallel d.right
  result : c.result.Parallel d.result

namespace ConstraintSystem

/-- Two systems that differ at most in the constants of their constraints. -/
structure Parallel (s t : ConstraintSystem) : Prop where
  modulus_eq : s.modulus = t.modulus
  maxTerms_eq : s.maxTerms = t.maxTerms
  numVars_eq : s.numVars = t.numVars
  constraints : List.Forall₂ ProductConstraint.Parallel s.constraints.toList t.constraints.toList

theorem parallel_refl_empty (p : Modulus) (bound : TermBound) :
    (empty p bound).Parallel (empty p bound) :=
  ⟨rfl, rfl, rfl, .nil⟩

theorem Parallel.order_eq {s t : ConstraintSystem} (h : s.Parallel t) : s.order = t.order := by
  rw [order, order, h.modulus_eq]

theorem couples_fresh : Couples Parallel fresh fresh Combination.Parallel := by
  constructor
  intro s s' t t' x x' hs hexec hexec'
  obtain ⟨hx, rfl⟩ := Prod.mk.inj ((exec_fresh s).symm.trans hexec)
  obtain ⟨hx', rfl⟩ := Prod.mk.inj ((exec_fresh s').symm.trans hexec')
  obtain rfl := Except.ok.inj hx
  obtain rfl := Except.ok.inj hx'
  have hnumVars := hs.numVars_eq
  refine ⟨⟨hs.modulus_eq, hs.maxTerms_eq, congrArg (· + 1) hnumVars, hs.constraints⟩, ?_⟩
  rw [nextVar, nextVar, hs.order_eq, hnumVars]
  exact Combination.parallel_refl _

theorem couples_one : Couples Parallel one one Combination.Parallel :=
  Couples.get.bind fun _ _ hs => .pure (by rw [hs.order_eq]; exact Combination.parallel_refl _)

theorem couples_satisfy {c d : ProductConstraint} (h : c.Parallel d) :
    Couples Parallel (satisfy c) (satisfy d) fun _ _ => True := by
  refine Couples.get.bind fun s s' _ => .after_check fun _ _ => ?_
  constructor
  intro s s' t t' _ _ hs hexec hexec'
  obtain ⟨-, rfl⟩ := Prod.mk.inj hexec
  obtain ⟨-, rfl⟩ := Prod.mk.inj hexec'
  refine ⟨⟨hs.modulus_eq, hs.maxTerms_eq, hs.numVars_eq, ?_⟩, trivial⟩
  rw [push_constraints, push_constraints, Array.toList_push, Array.toList_push]
  exact List.rel_append hs.constraints (.cons h .nil)

theorem couples_allocBool : Couples Parallel allocBool allocBool Combination.Parallel :=
  couples_fresh.bind fun _ _ hv => (couples_satisfy ⟨hv, hv, hv⟩).bind fun _ _ _ => .pure hv

/-- Whether a combination is compacted depends on the number of its terms alone. -/
theorem couples_compact {x x' : Combination} (hx : x.Parallel x') :
    Couples Parallel (compact x) (compact x') Combination.Parallel := by
  refine Couples.get.bind fun s s' hs => ?_
  rw [hs.maxTerms_eq, hx.terms_eq]
  split
  · exact .pure hx
  · refine couples_fresh.bind fun v v' hv => couples_one.bind fun one one' hone => ?_
    exact (couples_satisfy ⟨hx, hone, hv⟩).bind fun _ _ _ => .pure hv

section Operations

variable (table : Table) (ty : ValueType) {x x' y y' : Combination}

/-- A constant has no terms, whatever its value is. -/
theorem couples_constant (d d' : Datum) :
    Couples Parallel (constant table ty d) (constant table ty d') Combination.Parallel := by
  refine .after_check fun _ _ => ?_
  refine .after_check fun value value' => ?_
  refine Couples.get.bind fun s s' hs => .pure ?_
  rw [order, order, hs.modulus_eq]
  exact ⟨rfl, rfl⟩

theorem couples_and (hx : x.Parallel x') (hy : y.Parallel y') :
    Couples Parallel (and table ty x y) (and table ty x' y') Combination.Parallel := by
  refine .after_check fun _ _ => Couples.get.bind fun s s' _ => ?_
  refine .after_check fun _ _ => .after_check fun _ _ => ?_
  refine couples_fresh.bind fun v v' hv => ?_
  exact (couples_satisfy ⟨hx, hy, hv⟩).bind fun _ _ _ => .pure hv

theorem couples_xor (hx : x.Parallel x') (hy : y.Parallel y') :
    Couples Parallel (xor table ty x y) (xor table ty x' y') Combination.Parallel := by
  refine .after_check fun _ _ => Couples.get.bind fun s s' hs => ?_
  refine .after_check fun _ _ => .after_check fun _ _ => ?_
  -- Which form the operation takes is decided by the modulus, not by its operands.
  rw [hs.modulus_eq]
  split
  · refine (Couples.lift fun _ _ => hx.add hy).bind fun sum sum' hsum => ?_
    exact couples_compact hsum
  · refine (couples_and table ty hx hy).bind fun both both' hboth => ?_
    refine (Couples.lift fun _ _ => hx.add hy).bind fun sum sum' hsum => ?_
    refine (Couples.lift fun _ _ => hboth.scale).bind fun twice twice' htwice => ?_
    refine (Couples.lift fun _ _ => hsum.sub htwice).bind fun difference difference' h => ?_
    exact couples_compact h

theorem couples_not (hx : x.Parallel x') :
    Couples Parallel (not table ty x) (not table ty x') Combination.Parallel := by
  refine .after_check fun _ _ => Couples.get.bind fun s s' _ => ?_
  refine .after_check fun _ _ => ?_
  refine couples_one.bind fun one one' hone => ?_
  exact .lift fun _ _ => hone.sub hx

theorem couples_or (hx : x.Parallel x') (hy : y.Parallel y') :
    Couples Parallel ((backend table).or ty x y) ((backend table).or ty x' y')
      Combination.Parallel := by
  refine .after_check fun _ _ => ?_
  refine (couples_not table ty hx).bind fun _ _ hnotX => ?_
  refine (couples_not table ty hy).bind fun _ _ hnotY => ?_
  refine (couples_and table ty hnotX hnotY).bind fun _ _ hneither => ?_
  exact couples_not table ty hneither

theorem couples_assertTrue (hx : x.Parallel x') :
    Couples Parallel (assertTrue table x) (assertTrue table x') fun _ _ => True := by
  refine .after_check fun _ _ => couples_one.bind fun _ _ hone => ?_
  exact couples_one.bind fun _ _ hone' => couples_satisfy ⟨hx, hone, hone'⟩

theorem couples_assertEq (hx : x.Parallel x') (hy : y.Parallel y') :
    Couples Parallel (assertEq table ty x y) (assertEq table ty x' y') fun _ _ => True := by
  refine .after_check fun _ _ => ?_
  refine (Couples.lift fun _ _ => hx.sub hy).bind fun _ _ hdifference => ?_
  refine couples_one.bind fun _ _ hone => Couples.get.bind fun s s' hs => ?_
  rw [hs.order_eq]
  exact couples_satisfy ⟨hdifference, hone, Combination.parallel_refl _⟩

theorem parallel_weightedSum {order : Order} {bits bits' : List Combination}
    (hbits : List.Forall₂ Combination.Parallel bits bits') {total total' : Combination}
    (hsum : weightedSum order bits = .ok total) (hsum' : weightedSum order bits' = .ok total') :
    total.Parallel total' := by
  have hentries : List.Forall₂ (fun entry entry' => entry.1.Parallel entry'.1 ∧ entry.2 = entry'.2)
      bits.zipIdx bits'.zipIdx := by
    rw [List.zipIdx_eq_zip_range', List.zipIdx_eq_zip_range', hbits.length_eq]
    exact forall₂_zip_zip hbits (List.forall₂_refl _)
  refine foldlM_related ?_ hentries (Combination.parallel_refl (.zero order)) hsum hsum'
  rintro running running' ⟨bit, i⟩ ⟨bit', i'⟩ next next' hrunning ⟨hbit, hi⟩ hnext hnext'
  obtain rfl : i = i' := hi
  obtain ⟨weighted, hweighted, hadd⟩ := bind_eq_ok_iff.mp hnext
  obtain ⟨weighted', hweighted', hadd'⟩ := bind_eq_ok_iff.mp hnext'
  exact hrunning.add (hbit.scale hweighted hweighted') hadd hadd'

theorem couples_decomposeByte (hx : x.Parallel x') :
    Couples Parallel (decomposeByte table x) (decomposeByte table x')
      (List.Forall₂ Combination.Parallel) := by
  refine .after_check fun _ _ => ?_
  refine (Couples.mapM_same _ fun _ => couples_allocBool).bind fun bits bits' hbits => ?_
  refine Couples.get.bind fun s s' hs => ?_
  rw [hs.order_eq]
  refine (Couples.lift fun _ _ => parallel_weightedSum hbits).bind fun _ _ htotal => ?_
  refine couples_one.bind fun _ _ hone => ?_
  exact (couples_satisfy ⟨htotal, hone, hx⟩).bind fun _ _ _ => .pure hbits

/-- No operation of the constraint system looks at the constants of its handles. -/
theorem backend_uniform :
    (backend table).Uniform Parallel fun _ => Combination.Parallel where
  constant := couples_constant table
  binary op ty _ _ _ _ hx hy := by
    cases op with
    | and => exact couples_and table ty hx hy
    | or => exact couples_or table ty hx hy
    | xor => exact couples_xor table ty hx hy
    | wrappingAdd => exact .after_check fun _ _ => .stop
  not := couples_not table
  shift op ty _ _ amount hx := by
    cases op <;> exact .after_check fun _ _ => .stop
  assertTrue := couples_assertTrue table
  assertEq := couples_assertEq table

end Operations

end ConstraintSystem

end WordCircuit
