import WordCircuit.Proofs.ConstraintSystem.Solutions

namespace WordCircuit

theorem allM_eq_ok {α : Type} {f : α → Except Fault Bool} {g : α → Bool} {items : List α}
    (h : ∀ a ∈ items, f a = .ok (g a)) : items.allM f = .ok (items.all g) := by
  induction items with
  | nil => rfl
  | cons a rest ih =>
    rw [List.forall_mem_cons] at h
    rw [List.allM_cons, h.1, List.all_cons]
    change (if g a = true then rest.allM f else .ok false) = _
    cases g a with
    | true => exact ih h.2
    | false => rfl

theorem filterAuxM_eq_ok {α : Type} {f : α → Except Fault Bool} {g : α → Bool} {items : List α}
    (h : ∀ a ∈ items, f a = .ok (g a)) (kept : List α) :
    items.filterAuxM f kept = .ok ((items.filter g).reverse ++ kept) := by
  induction items generalizing kept with
  | nil => rfl
  | cons a rest ih =>
    rw [List.forall_mem_cons] at h
    rw [List.filterAuxM, h.1]
    change rest.filterAuxM f (cond (g a) (a :: kept) kept) = _
    rw [ih h.2]
    cases hkeep : g a <;> simp [hkeep]

theorem filterM_eq_ok {α : Type} {f : α → Except Fault Bool} {g : α → Bool} {items : List α}
    (h : ∀ a ∈ items, f a = .ok (g a)) : items.filterM f = .ok (items.filter g) := by
  rw [List.filterM, filterAuxM_eq_ok h, List.append_nil]
  exact congrArg Except.ok (List.reverse_reverse _)

/-- The product of the first two affine functions is the third at the assignment. -/
def ProductConstraint.MetAt (p : Modulus) (assignment : Assignment) (c : ProductConstraint) : Prop :=
  c.left.denote p (assignment.classAt p) * c.right.denote p (assignment.classAt p) =
    c.result.denote p (assignment.classAt p)

instance (p : Modulus) (assignment : Assignment) : DecidablePred (ProductConstraint.MetAt p assignment) :=
  fun _ => inferInstanceAs (Decidable (_ = _))

/-- Where all variables have values, a constraint is found to be met or not. -/
theorem ProductConstraint.holds_eq_ok {p : Modulus} {assignment : Assignment}
    (hover : assignment.Over p) {c : ProductConstraint}
    (hleft : c.left.Over p ∧ c.left.Covered assignment)
    (hright : c.right.Over p ∧ c.right.Covered assignment)
    (hresult : c.result.Over p ∧ c.result.Covered assignment) :
    c.holds assignment = .ok (decide (c.MetAt p assignment)) := by
  have hvalue {x : Combination} (hx : x.Over p ∧ x.Covered assignment) :
      x.evaluate assignment = .ok (.ofClass p (x.denote p (assignment.classAt p))) :=
    (Combination.evaluate_eq_ok_iff hover hx.1 _).mpr ⟨hx.2, rfl⟩
  rw [holds, hvalue hleft, hvalue hright, hvalue hresult]
  change (Element.mul _ _ >>= _) = _
  rw [Element.mul_ofClass]
  apply congrArg Except.ok
  rw [Bool.eq_iff_iff, Element.same_ofClass, decide_eq_true_iff, MetAt]

namespace ConstraintSystem

/-- The positions of the constraints that are not met, in increasing order. -/
def violations (s : ConstraintSystem) (assignment : Assignment) : List Nat :=
  (s.constraints.toList.zipIdx.filter fun entry =>
    !decide (entry.1.MetAt s.modulus assignment)).map Prod.snd

theorem pairwise_violations (s : ConstraintSystem) (assignment : Assignment) :
    (s.violations assignment).Pairwise (· < ·) := by
  have hsublist : (s.violations assignment).Sublist (s.constraints.toList.zipIdx.map Prod.snd) :=
    List.filter_sublist.map Prod.snd
  rw [List.zipIdx_map_snd] at hsublist
  exact List.Pairwise.sublist hsublist List.pairwise_lt_range'

theorem mem_violations_iff (s : ConstraintSystem) (assignment : Assignment) (i : Nat) :
    i ∈ s.violations assignment ↔
      ∃ c, s.constraints[i]? = some c ∧ ¬c.MetAt s.modulus assignment := by
  simp [violations, List.mem_zipIdx_iff_getElem?, and_comm]

theorem violations_eq_nil_iff (s : ConstraintSystem) (assignment : Assignment) :
    s.violations assignment = [] ↔ ∀ c ∈ s.constraints, c.MetAt s.modulus assignment := by
  rw [List.eq_nil_iff_forall_not_mem]
  simp only [mem_violations_iff, not_exists, not_and, not_not]
  constructor
  · intro h c hc
    obtain ⟨i, hi⟩ := Array.mem_iff_getElem?.mp hc
    exact h i c hi
  · intro h i c hi
    exact h c (Array.mem_of_getElem? hi)

section Evaluation

variable {s : ConstraintSystem} (hwell : s.WellFormed) {assignment : Assignment}
  (hover : assignment.Over s.modulus) (hsize : s.numVars ≤ assignment.size)

include hwell hover hsize

theorem WellFormed.holds_eq_ok {c : ProductConstraint} (hc : c ∈ s.constraints) :
    c.holds assignment = .ok (decide (c.MetAt s.modulus assignment)) := by
  obtain ⟨hleft, hright, hresult⟩ := hwell c hc
  exact ProductConstraint.holds_eq_ok hover ⟨hleft.over_field, hleft.covered hsize⟩
    ⟨hright.over_field, hright.covered hsize⟩ ⟨hresult.over_field, hresult.covered hsize⟩

/-- At an assignment to all variables the search for violated constraints succeeds and
    finds all of them. -/
theorem WellFormed.unsatisfied_eq_ok : s.unsatisfied assignment = .ok (s.violations assignment) := by
  have hfilter : (s.constraints.toList.zipIdx.filterM fun entry => do
      return !(← entry.1.holds assignment)) =
      .ok (s.constraints.toList.zipIdx.filter fun entry =>
        !decide (entry.1.MetAt s.modulus assignment)) := by
    refine filterM_eq_ok fun entry hentry => ?_
    have hmem := Array.mem_toList_iff.mp (List.fst_mem_of_mem_zipIdx hentry)
    rw [hwell.holds_eq_ok hover hsize hmem]
    rfl
  rw [unsatisfied, hfilter]
  rfl

theorem WellFormed.isSatisfied_eq_ok :
    s.isSatisfied assignment = .ok (s.violations assignment).isEmpty := by
  rw [isSatisfied, allM_eq_ok fun c hc => hwell.holds_eq_ok hover hsize (Array.mem_toList_iff.mp hc)]
  apply congrArg Except.ok
  rw [Bool.eq_iff_iff, List.isEmpty_iff, violations_eq_nil_iff, List.all_eq_true]
  simp only [decide_eq_true_iff, Array.mem_toList_iff]

end Evaluation

end ConstraintSystem

end WordCircuit
