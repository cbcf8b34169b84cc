import WordCircuit.Proofs.Combination.Dimension
import WordCircuit.Proofs.ConstraintSystem.Connectives

namespace WordCircuit

theorem Element.alike_ofClass (p : Modulus) (a b : ZMod p.size) :
    (ofClass p a).alike (ofClass p b) = true ↔ a = b := by
  rw [alike, Bool.or_eq_true, same_ofClass]
  simp [ofClass, identical]

namespace Terms

theorem lookup_eq_some_iff_mem {entries : List (Int × Element)} (hnodup : (entries.map Prod.fst).Nodup)
    {index : Int} {coefficient : Element} :
    entries.lookup index = some coefficient ↔ (index, coefficient) ∈ entries := by
  induction entries with
  | nil => simp
  | cons entry rest ih =>
    obtain ⟨first, value⟩ := entry
    rw [List.map_cons, List.nodup_cons] at hnodup
    by_cases hindex : index = first
    · subst hindex
      have hnotmem : (index, coefficient) ∉ rest := by
        intro hmem
        have hkey : index ∈ rest.map Prod.fst := List.mem_map_of_mem hmem
        exact hnodup.1 hkey
      simp [hnotmem, eq_comm]
    · have htest : (index == first) = false := beq_eq_false_iff_ne.mpr hindex
      simp [List.lookup_cons, htest, hindex, ih hnodup.2]

/-- Collections of residues are equal if they hold the same terms in whatever sequence. -/
theorem same_iff_perm {p : Modulus} {terms other : Terms} (hterms : Over p terms.entries)
    (hother : Over p other.entries) : terms.same other = true ↔ terms.entries.Perm other.entries := by
  have hfound : ∀ entry ∈ terms.entries,
      (((other.find? entry.1).any fun found => found.alike entry.2) = true ↔ entry ∈ other.entries) := by
    intro entry hmem
    rw [Option.any_eq_true]
    constructor
    · rintro ⟨found, hfind, halike⟩
      have hentry := (lookup_eq_some_iff_mem other.nodup).mp hfind
      have heq : found = entry.2 := by
        obtain ⟨a, rfl⟩ := hother _ hentry
        obtain ⟨b, hb⟩ := hterms entry hmem
        rw [hb, Element.alike_ofClass] at halike
        rw [hb, halike]
      rwa [heq] at hentry
    · intro hentry
      refine ⟨entry.2, (lookup_eq_some_iff_mem other.nodup).mpr hentry, ?_⟩
      rw [(hterms entry hmem).eq_ofClass, Element.alike_ofClass]
  simp only [same, Bool.and_eq_true, beq_iff_eq, size, List.all_eq_true]
  constructor
  · rintro ⟨hsize, hall⟩
    have hsubset : terms.entries ⊆ other.entries := by
      intro entry hmem
      exact (hfound entry hmem).mp (hall entry hmem)
    have hsubperm := List.subperm_of_subset (terms.nodup.of_map Prod.fst) hsubset
    exact hsubperm.perm_of_length_le hsize.ge
  · intro hperm
    refine ⟨hperm.length_eq, fun entry hmem => ?_⟩
    exact (hfound entry hmem).mpr (hperm.mem_iff.mp hmem)

end Terms

namespace Combination

variable {p : Modulus} {x y : Combination}

theorem same_iff_perm (hx : x.Over p) (hy : y.Over p) :
    x.same y = true ↔ x.constant = y.constant ∧ x.terms.entries.Perm y.terms.entries := by
  have hconstant : x.constant.same y.constant = true ↔ x.constant = y.constant := by
    rw [hx.constant.eq_ofClass, hy.constant.eq_ofClass, Element.same_ofClass, Element.ofClass_inj]
  rw [same, Bool.and_eq_true, Bool.and_eq_true, hconstant, Terms.same_iff_perm hx.terms hy.terms,
    hx.order, hy.order]
  simp [Order.same]

/-- The terms of a combination can be told from its values, because none of them is zero. -/
theorem mem_entries_iff (hx : x.Over p) {entry : Int × Element} (hentry : entry.2.Over p) :
    entry ∈ x.terms.entries ↔
      entry.2.residue p ≠ 0 ∧ x.denote p (Pi.single entry.1 1) = x.denote p 0 + entry.2.residue p := by
  have hcoefficient : ∀ other ∈ x.terms.entries,
      x.denote p (Pi.single other.1 1) = x.denote p 0 + other.2.residue p := by
    intro other hmem
    rw [denote, denote, Terms.denote_single x.terms.nodup hmem, Terms.denote_zero, add_zero]
  constructor
  · intro hmem
    exact ⟨hx.residue_ne_zero entry hmem, hcoefficient entry hmem⟩
  · rintro ⟨hnonzero, hvalue⟩
    have hvar : entry.1 ∈ x.vars := by
      refine (mem_vars_iff hx entry.1).mpr ⟨Pi.single entry.1 1, 0, fun j hj => Pi.single_eq_of_ne hj 1, ?_⟩
      rw [hvalue]
      simpa using hnonzero
    obtain ⟨other, hmem, hindex⟩ := List.mem_map.mp hvar
    have hresidue : other.2.residue p = entry.2.residue p := by
      have hother := hcoefficient other hmem
      rw [hindex, hvalue] at hother
      exact (add_left_cancel hother).symm
    have hcoefficient : other.2 = entry.2 := by
      rw [(hx.terms other hmem).eq_ofClass, hentry.eq_ofClass, hresidue]
    have heq : other = entry := Prod.ext hindex hcoefficient
    exact heq ▸ hmem

theorem mem_entries_of_denote_eq (hx : x.Over p) (hy : y.Over p)
    (hvalue : ∀ v, x.denote p v = y.denote p v) {entry : Int × Element} (hmem : entry ∈ x.terms.entries) :
    entry ∈ y.terms.entries := by
  have hentry := hx.terms entry hmem
  rw [mem_entries_iff hx hentry, hvalue, hvalue] at hmem
  exact (mem_entries_iff hy hentry).mpr hmem

/-- Combinations are equal exactly if they stand for the same affine function. -/
theorem same_iff_denote_eq (hx : x.Over p) (hy : y.Over p) :
    x.same y = true ↔ ∀ v, x.denote p v = y.denote p v := by
  rw [same_iff_perm hx hy]
  constructor
  · rintro ⟨hconstant, hperm⟩ v
    rw [denote, denote, hconstant, Terms.denote, Terms.denote]
    exact congrArg _ (hperm.map _).sum_eq
  · intro hvalue
    constructor
    · have hzero := hvalue 0
      rw [denote, denote, Terms.denote_zero, Terms.denote_zero, add_zero, add_zero] at hzero
      rw [hx.constant.eq_ofClass, hy.constant.eq_ofClass, hzero]
    · rw [List.perm_ext_iff_of_nodup (x.terms.nodup.of_map Prod.fst) (y.terms.nodup.of_map Prod.fst)]
      intro entry
      constructor
      · exact mem_entries_of_denote_eq hx hy hvalue
      · exact mem_entries_of_denote_eq hy hx fun v => (hvalue v).symm

/-- The sequence of the terms does not matter for equality. -/
theorem same_congr {x' : Combination} (hx : x.Over p) (hy : y.Over p) (horder : x'.order = x.order)
    (hconstant : x'.constant = x.constant) (hperm : x'.terms.entries.Perm x.terms.entries) :
    x'.same y = x.same y := by
  have hx' : x'.Over p := by
    constructor
    · rw [horder, hx.order]
    · exact hconstant ▸ hx.constant
    · intro entry hmem
      exact hx.terms entry (hperm.mem_iff.mp hmem)
  rw [Bool.eq_iff_iff, same_iff_perm hx' hy, same_iff_perm hx hy, hconstant, hperm.congr_left]

/-- The combinations have one value at each assignment that reaches up to both dimensions. -/
def EvaluateAlike (p : Modulus) (x y : Combination) : Prop :=
  ∀ assignment : Assignment, assignment.Over p → max x.dim y.dim ≤ assignment.size →
    ∃ e, x.evaluate assignment = .ok e ∧ y.evaluate assignment = .ok e

/-- Assignments tell different affine functions apart. -/
theorem denote_eq_iff_evaluateAlike (hx : x.Over p) (hy : y.Over p) (hvarsX : ∀ i ∈ x.vars, 0 ≤ i)
    (hvarsY : ∀ i ∈ y.vars, 0 ≤ i) : (∀ v, x.denote p v = y.denote p v) ↔ EvaluateAlike p x y := by
  constructor
  · intro hvalue assignment hover hsize
    obtain ⟨-, hevaluateX⟩ | ⟨hlt, -⟩ := evaluate_cases hx hvarsX hover
    · obtain ⟨-, hevaluateY⟩ | ⟨hlt, -⟩ := evaluate_cases hy hvarsY hover
      · exact ⟨_, hevaluateX, by rw [hevaluateY, hvalue]⟩
      · omega
    · omega
  · intro hevaluate v
    obtain ⟨count, hcount⟩ := Int.eq_ofNat_of_zero_le (le_max_of_le_left (dim_nonneg hvarsX))
    obtain ⟨e, hevaluateX, hevaluateY⟩ := hevaluate (.ofValues p v count)
      (Assignment.over_ofValues p v count) (by rw [Assignment.size_ofValues, hcount])
    rw [evaluate_ofValues hx hvarsX (by omega) v] at hevaluateX
    rw [evaluate_ofValues hy hvarsY (by omega) v] at hevaluateY
    rw [← hevaluateY] at hevaluateX
    exact Element.ofClass_inj.mp (Except.ok.inj hevaluateX)

theorem exists_sub_of_add (hx : x.Over p) (hy : y.Over p) :
    ∃ sum difference, x.add y = .ok sum ∧ sum.sub y = .ok difference ∧ difference.same x = true := by
  obtain ⟨sum, hsum, hcombinesSum⟩ := exists_add hx hy
  obtain ⟨difference, hdifference, hcombines⟩ := exists_sub hcombinesSum.over_field hy
  refine ⟨sum, difference, hsum, hdifference, (same_iff_denote_eq hcombines.over_field hx).mpr ?_⟩
  intro v
  rw [hcombines.denote_eq, hcombinesSum.denote_eq, add_sub_cancel_right]

theorem exists_sub_self (hx : x.Over p) :
    ∃ nothing, x.sub x = .ok nothing ∧ nothing.same (.zero (.exact p)) = true := by
  obtain ⟨nothing, hnothing, hcombines⟩ := exists_sub hx hx
  have hzero : (Combination.zero (.exact p)).Over p := by
    rw [zero, Element.zero_exact]
    exact over_ofElement (Element.over_ofClass p 0)
  refine ⟨nothing, hnothing, (same_iff_denote_eq hcombines.over_field hzero).mpr ?_⟩
  intro v
  rw [hcombines.denote_eq, sub_self, zero, denote_ofElement, Element.zero_exact, Element.residue_ofClass]

end Combination

/-- Two negations cancel. -/
theorem ConstraintSystem.exists_exec_not_not {s : ConstraintSystem} {a : Combination} (ha : a.Over s.modulus)
    {table : Table} {ty : ValueType} (hrequire : table.require name ty .not "not" = .ok ()) :
    ∃ complement double, (not table ty a).exec s = (.ok complement, s) ∧
      (not table ty complement).exec s = (.ok double, s) ∧ double.same a = true := by
  obtain ⟨complement, hcomplement, hcombines⟩ := exists_exec_not hrequire ha
  obtain ⟨double, hdouble, hcombinesDouble⟩ := exists_exec_not hrequire hcombines.over_field
  refine ⟨complement, double, hcomplement, hdouble, ?_⟩
  rw [Combination.same_iff_denote_eq hcombinesDouble.over_field ha]
  intro v
  rw [hcombinesDouble.denote_eq, hcombines.denote_eq, sub_sub_cancel]

/-- What two formulas make is equal exactly if it has the same values, which is to say if the
    formulas mean the same function, in whatever sequence the terms stand. So what is added can be
    taken away again, what is taken from itself leaves zero, and two negations cancel. -/
theorem Combination.same_iff_same_function {p : Modulus} (a b : Formula p) :
    ∃ x y, a.build = .ok x ∧ b.build = .ok y ∧
      (x.same y = true ↔ EvaluateAlike p x y) ∧ (x.same y = true ↔ ∀ v, a.value v = b.value v) ∧
      (∀ x' : Combination, x'.order = x.order → x'.constant = x.constant →
        x'.terms.entries.Perm x.terms.entries → x'.same y = x.same y) ∧
      (∃ sum difference, x.add y = .ok sum ∧ sum.sub y = .ok difference ∧ difference.same x = true) ∧
      (∃ nothing, x.sub x = .ok nothing ∧ nothing.same (.zero (.exact p)) = true) ∧
      ∀ s : ConstraintSystem, s.modulus = p → ∃ complement double,
        (ConstraintSystem.not (ConstraintSystem.table p) .bool x).exec s = (.ok complement, s) ∧
        (ConstraintSystem.not (ConstraintSystem.table p) .bool complement).exec s = (.ok double, s) ∧
        double.same x = true := by
  obtain ⟨x, hx⟩ := a.exists_builds
  obtain ⟨y, hy⟩ := b.exists_builds
  have hsame := same_iff_denote_eq hx.over_field hy.over_field
  have halike := denote_eq_iff_evaluateAlike hx.over_field hy.over_field hx.nonneg hy.nonneg
  refine ⟨x, y, hx.build_eq, hy.build_eq, hsame.trans halike, ?_, ?_, ?_, ?_, ?_⟩
  · simpa only [hx.denote_eq, hy.denote_eq] using hsame
  · intro x' horder hconstant hperm
    exact same_congr hx.over_field hy.over_field horder hconstant hperm
  · exact exists_sub_of_add hx.over_field hy.over_field
  · exact exists_sub_self hx.over_field
  · rintro s rfl
    exact ConstraintSystem.exists_exec_not_not hx.over_field (ConstraintSystem.require_bool _ (by simp) _)

end WordCircuit
