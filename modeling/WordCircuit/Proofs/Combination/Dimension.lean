import WordCircuit.Proofs.Combination.Formula
import WordCircuit.Proofs.ConstraintSystem.Solutions

namespace WordCircuit

namespace Assignment

/-- The assignment of the first `count` values that a function gives to the variables. -/
def ofValues (p : Modulus) (v : Int → ZMod p.size) (count : Nat) : Assignment :=
  (Array.range count).map fun (i : Nat) => .element (.ofClass p (v i))

theorem size_ofValues (p : Modulus) (v : Int → ZMod p.size) (count : Nat) :
    (ofValues p v count).size = count := by
  simp [ofValues]

theorem getElem?_ofValues (p : Modulus) (v : Int → ZMod p.size) {count i : Nat} (hi : i < count) :
    (ofValues p v count)[i]? = some (.element (.ofClass p (v i))) := by
  simp [ofValues, hi]

theorem over_ofValues (p : Modulus) (v : Int → ZMod p.size) (count : Nat) :
    (ofValues p v count).Over p := by
  intro entry hentry
  obtain ⟨i, -, rfl⟩ := Array.mem_map.mp hentry
  exact ⟨v i, rfl⟩

theorem classAt_ofValues (p : Modulus) (v : Int → ZMod p.size) {count : Nat} {i : Int} (hlo : 0 ≤ i)
    (hhi : i < count) : (ofValues p v count).classAt p i = v i := by
  have hentry : (ofValues p v count).valueAt? i = some (.element (.ofClass p (v i))) := by
    rw [valueAt?_of_nonneg _ hlo, getElem?_ofValues p v (by omega), Int.toNat_of_nonneg hlo]
  rw [classAt, hentry]
  exact Element.residue_ofClass p (v i)

end Assignment

namespace Combination

variable {p : Modulus} {x y z : Combination}

theorem lt_dim_of_mem {i : Int} (hi : i ∈ x.vars) : i < x.dim := by
  rw [vars] at hi
  rw [dim]
  split
  · rename_i hempty
    simp [hempty] at hi
  · rename_i index coefficient rest hentries
    have hgreatest := (foldl_max_lt_iff rest index _).mp (Int.lt_succ _)
    rw [hentries, List.map_cons, List.mem_cons] at hi
    obtain rfl | hi := hi
    · exact hgreatest.1
    · obtain ⟨entry, hmem, rfl⟩ := List.mem_map.mp hi
      exact hgreatest.2 entry hmem

theorem dim_nonneg (hvars : ∀ i ∈ x.vars, 0 ≤ i) : 0 ≤ x.dim := by
  by_contra hneg
  have hempty : x.vars = [] := by
    rw [List.eq_nil_iff_forall_not_mem]
    intro i hi
    have hlo := hvars i hi
    have hhi := lt_dim_of_mem hi
    omega
  rw [vars, List.map_eq_nil_iff] at hempty
  rw [dim, hempty] at hneg
  exact hneg le_rfl

/-- A dimension that is not zero belongs to a variable, namely the last one. -/
theorem dim_pred_mem_vars (hpos : 0 < x.dim) : x.dim - 1 ∈ x.vars := by
  have hreached : ¬ x.dim ≤ x.dim - 1 := by omega
  rw [x.dim_le_iff (by omega)] at hreached
  push Not at hreached
  obtain ⟨i, hi, hlo⟩ := hreached
  have hhi := lt_dim_of_mem hi
  obtain rfl : i = x.dim - 1 := by omega
  exact hi

theorem covered_iff_dim_le (hvars : ∀ i ∈ x.vars, 0 ≤ i) (assignment : Assignment) :
    x.Covered assignment ↔ x.dim ≤ assignment.size := by
  have hentry {i : Int} (hi : 0 ≤ i) : (assignment.valueAt? i).isSome ↔ i < assignment.size := by
    rw [assignment.valueAt?_of_nonneg hi, isSome_getElem?]
    omega
  rw [x.dim_le_iff (by omega), Covered, vars, List.forall_mem_map]
  apply forall₂_congr
  intro entry hmem
  exact hentry (hvars entry.1 (List.mem_map_of_mem hmem))

/-- The only fault of the fold behind an evaluation is that a variable has no entry. -/
theorem exists_unassigned_of_foldlM {assignment : Assignment} (hover : assignment.Over p)
    {entries : List (Int × Element)} (hentries : Terms.Over p entries) (total : ZMod p.size)
    {fault : Fault} (hfault : entries.foldlM (addTerm assignment) (.ofClass p total) = .error fault) :
    ∃ i, fault = .unassigned i := by
  induction entries generalizing total with
  | nil => cases hfault
  | cons entry rest ih =>
    obtain ⟨hentry, hrest⟩ := Terms.over_cons.mp hentries
    rw [List.foldlM_cons] at hfault
    by_cases hsome : (assignment.valueAt? entry.1).isSome
    · rw [addTerm_of_covered hover total hentry hsome] at hfault
      exact ih hrest _ hfault
    · have hnone : assignment.valueAt? entry.1 = none := by simpa using hsome
      rw [addTerm, hnone] at hfault
      exact ⟨entry.1, (Except.error.inj hfault).symm⟩

/-- An evaluation either has a value, because the assignment reaches up to the dimension, or it
    stops at a variable that has no entry. -/
theorem evaluate_cases (hx : x.Over p) (hvars : ∀ i ∈ x.vars, 0 ≤ i) {assignment : Assignment}
    (hover : assignment.Over p) :
    (x.dim ≤ assignment.size ∧
        x.evaluate assignment = .ok (.ofClass p (x.denote p (assignment.classAt p)))) ∨
      assignment.size < x.dim ∧ ∃ i, x.evaluate assignment = .error (.unassigned i) := by
  by_cases hdim : x.dim ≤ assignment.size
  · have hcovered := (covered_iff_dim_le hvars assignment).mpr hdim
    exact .inl ⟨hdim, (evaluate_eq_ok_iff hover hx _).mpr ⟨hcovered, rfl⟩⟩
  · refine .inr ⟨by omega, ?_⟩
    cases hevaluate : x.evaluate assignment with
    | ok e =>
      obtain ⟨hcovered, -⟩ := (evaluate_eq_ok_iff hover hx e).mp hevaluate
      exact absurd ((covered_iff_dim_le hvars assignment).mp hcovered) hdim
    | error fault =>
      rw [evaluate, hx.constant.eq_ofClass] at hevaluate
      obtain ⟨i, rfl⟩ := exists_unassigned_of_foldlM hover hx.terms _ hevaluate
      exact ⟨i, rfl⟩

/-- The value at the values that a function gives to the variables. -/
theorem evaluate_ofValues (hx : x.Over p) (hvars : ∀ i ∈ x.vars, 0 ≤ i) {count : Nat}
    (hcount : x.dim ≤ count) (v : Int → ZMod p.size) :
    x.evaluate (.ofValues p v count) = .ok (.ofClass p (x.denote p v)) := by
  have hagree : ∀ i ∈ x.vars, (Assignment.ofValues p v count).classAt p i = v i := by
    intro i hi
    have hhi := lt_dim_of_mem hi
    exact Assignment.classAt_ofValues p v (hvars i hi) (by omega)
  rw [← denote_congr hagree]
  obtain ⟨-, hevaluate⟩ | ⟨hlt, -⟩ := evaluate_cases hx hvars (Assignment.over_ofValues p v count)
  · exact hevaluate
  · rw [Assignment.size_ofValues] at hlt
    omega

/-- The entries of an assignment that the combination reads are the first `count` ones. It is
    refused where there are fewer and has a value otherwise, entries behind them do not matter,
    and the last one of them does. -/
structure ReadsFirst (p : Modulus) (x : Combination) (count : Int) : Prop where
  unassigned_iff : ∀ assignment : Assignment, assignment.Over p →
    ((∃ fault, x.evaluate assignment = .error fault ∧ fault.kind = .index) ↔ assignment.size < count)
  exists_value : ∀ assignment : Assignment, assignment.Over p → count ≤ assignment.size →
    ∃ value, x.evaluate assignment = .ok value
  evaluate_congr : ∀ first second : Assignment,
    (∀ i : Nat, i < count → first[i]? = second[i]?) → x.evaluate first = x.evaluate second
  last_matters : 0 < count → ∃ (first second : Assignment) (a b : ZMod p.size),
    first.Over p ∧ second.Over p ∧ first.size = count ∧ second.size = count ∧
      (∀ i : Nat, i ≠ count - 1 → first[i]? = second[i]?) ∧ a ≠ b ∧
      x.evaluate first = .ok (.ofClass p a) ∧ x.evaluate second = .ok (.ofClass p b)

theorem readsFirst_dim (hx : x.Over p) (hvars : ∀ i ∈ x.vars, 0 ≤ i) : x.ReadsFirst p x.dim := by
  constructor
  · intro assignment hover
    obtain ⟨hle, hvalue⟩ | ⟨hlt, i, hfault⟩ := evaluate_cases hx hvars hover
    · simp only [hvalue, reduceCtorEq, false_and, exists_false, false_iff]
      omega
    · exact ⟨fun _ => hlt, fun _ => ⟨.unassigned i, hfault, rfl⟩⟩
  · intro assignment hover hle
    obtain ⟨-, hvalue⟩ | ⟨hlt, -⟩ := evaluate_cases hx hvars hover
    · exact ⟨_, hvalue⟩
    · omega
  · intro first second hagree
    apply evaluate_congr
    intro i hi
    have hlo := hvars i hi
    have hhi := lt_dim_of_mem hi
    rw [first.valueAt?_of_nonneg hlo, second.valueAt?_of_nonneg hlo]
    exact hagree i.toNat (by omega)
  · intro hpos
    -- The last entry is that of a variable with a coefficient, so its value alone can be told.
    obtain ⟨count, hcount⟩ := Int.eq_ofNat_of_zero_le hpos.le
    have hlast := dim_pred_mem_vars hpos
    obtain ⟨v, v', hagree, hne⟩ := (mem_vars_iff hx _).mp hlast
    refine ⟨.ofValues p v count, .ofValues p v' count, x.denote p v, x.denote p v',
      Assignment.over_ofValues p v count, Assignment.over_ofValues p v' count, ?_, ?_, ?_, hne, ?_, ?_⟩
    · rw [Assignment.size_ofValues, hcount]
    · rw [Assignment.size_ofValues, hcount]
    · intro i hi
      by_cases hlt : i < count
      · rw [Assignment.getElem?_ofValues p v hlt, Assignment.getElem?_ofValues p v' hlt, hagree i hi]
      · rw [Array.getElem?_eq_none (by rw [Assignment.size_ofValues]; omega),
          Array.getElem?_eq_none (by rw [Assignment.size_ofValues]; omega)]
    · exact evaluate_ofValues hx hvars (by omega) v
    · exact evaluate_ofValues hx hvars (by omega) v'

section Combined

variable {f : ZMod p.size → ZMod p.size → ZMod p.size} (h : Combines p f x y z)

include h

theorem Combines.swap : Combines p (fun b a => f a b) y x z :=
  ⟨h.over_field, h.denote_eq, fun i hi => (h.vars i hi).symm⟩

theorem Combines.dim_le (hx : ∀ i ∈ x.vars, 0 ≤ i) : z.dim ≤ max x.dim y.dim := by
  have hnonneg := dim_nonneg hx
  rw [z.dim_le_iff (by omega)]
  intro i hi
  obtain hi | hi := h.vars i hi
  · exact lt_max_of_lt_left (lt_dim_of_mem hi)
  · exact lt_max_of_lt_right (lt_dim_of_mem hi)

/-- A variable that only one of the parts has cannot cancel. -/
theorem Combines.mem_vars (hx : x.Over p) (hf : ∀ b, Function.Injective fun a => f a b) {i : Int}
    (hi : i ∈ x.vars) (hother : i ∉ y.vars) : i ∈ z.vars := by
  obtain ⟨v, v', hagree, hne⟩ := (mem_vars_iff hx i).mp hi
  have hsame : y.denote p v = y.denote p v' := by
    apply denote_congr
    intro j hj
    apply hagree
    rintro rfl
    exact hother hj
  refine (mem_vars_iff h.over_field i).mpr ⟨v, v', hagree, ?_⟩
  rw [h.denote_eq, h.denote_eq, hsame]
  exact (hf _).ne hne

theorem Combines.dim_eq_of_lt (hx : x.Over p) (hvarsX : ∀ i ∈ x.vars, 0 ≤ i)
    (hvarsY : ∀ i ∈ y.vars, 0 ≤ i) (hf : ∀ b, Function.Injective fun a => f a b)
    (hlt : y.dim < x.dim) : z.dim = x.dim := by
  have hnonneg := dim_nonneg hvarsY
  have hlast : x.dim - 1 ∉ y.vars := by
    intro hmem
    have hhi := lt_dim_of_mem hmem
    omega
  have hle := h.dim_le hvarsX
  have hge := lt_dim_of_mem (h.mem_vars hx hf (dim_pred_mem_vars (by omega)) hlast)
  omega

end Combined

/-- Where one of two parts has the greater dimension, a combined one whose operation cancels on
    either side has it too. -/
theorem Combines.dim_eq {f : ZMod p.size → ZMod p.size → ZMod p.size} (h : Combines p f x y z)
    (hx : x.Over p) (hy : y.Over p) (hvarsX : ∀ i ∈ x.vars, 0 ≤ i) (hvarsY : ∀ i ∈ y.vars, 0 ≤ i)
    (hleft : ∀ b, Function.Injective fun a => f a b) (hright : ∀ a, Function.Injective (f a))
    (hne : x.dim ≠ y.dim) : z.dim = max x.dim y.dim := by
  obtain hlt | hlt := lt_or_gt_of_ne hne
  · rw [max_eq_right hlt.le]
    exact h.swap.dim_eq_of_lt hy hvarsY hvarsX hright hlt
  · rw [max_eq_left hlt.le]
    exact h.dim_eq_of_lt hx hvarsX hvarsY hleft hlt

/-- What two formulas make reads exactly the entries below its dimension. The sum and the
    difference reach no further than both parts do, and exactly as far as the one of greater
    dimension. -/
theorem reads_exactly_dim (a b : Formula p) :
    ∃ x y, a.build = .ok x ∧ b.build = .ok y ∧ x.ReadsFirst p x.dim ∧
      ∃ sum difference, x.add y = .ok sum ∧ x.sub y = .ok difference ∧
        sum.dim ≤ max x.dim y.dim ∧ difference.dim ≤ max x.dim y.dim ∧
        (x.dim ≠ y.dim → sum.dim = max x.dim y.dim ∧ difference.dim = max x.dim y.dim) := by
  obtain ⟨x, hx⟩ := a.exists_builds
  obtain ⟨y, hy⟩ := b.exists_builds
  obtain ⟨sum, hsum, hcombinesSum⟩ := exists_add hx.over_field hy.over_field
  obtain ⟨difference, hdifference, hcombinesDifference⟩ := exists_sub hx.over_field hy.over_field
  refine ⟨x, y, hx.build_eq, hy.build_eq, readsFirst_dim hx.over_field hx.nonneg, sum, difference,
    hsum, hdifference, hcombinesSum.dim_le hx.nonneg, hcombinesDifference.dim_le hx.nonneg, ?_⟩
  intro hne
  constructor
  · exact hcombinesSum.dim_eq hx.over_field hy.over_field hx.nonneg hy.nonneg add_left_injective
      add_right_injective hne
  · exact hcombinesDifference.dim_eq hx.over_field hy.over_field hx.nonneg hy.nonneg
      (fun _ => sub_left_injective) (fun _ => sub_right_injective) hne

end Combination

end WordCircuit
