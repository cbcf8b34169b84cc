import WordCircuit.Proofs.ConstraintSystem.Gate

namespace WordCircuit

theorem Assignment.valueAt?_of_nonneg (assignment : Assignment) {index : Int} (hindex : 0 ≤ index) :
    assignment.valueAt? index = assignment[index.toNat]? := by
  rw [valueAt?, position?, if_pos hindex]
  by_cases hlt : index < assignment.size
  · rw [if_pos hlt, Option.bind_some]
  · rw [if_neg hlt, Option.bind_none, Array.getElem?_eq_none (by omega)]

/-- The assignment with a value for one more variable. -/
def Assignment.extend (assignment : Assignment) (value : Operand) : Assignment :=
  assignment.push value

theorem Assignment.size_extend (assignment : Assignment) (value : Operand) :
    (assignment.extend value).size = assignment.size + 1 :=
  Array.size_push value

theorem Assignment.exists_extend (assignment : Assignment) (hsize : assignment.size ≠ 0) :
    ∃ before value, assignment = Assignment.extend before value :=
  Array.eq_push_of_size_ne_zero hsize

/-- A further value leaves all values before it in their places. -/
theorem Assignment.valueAt?_extend_of_lt (assignment : Assignment) (value : Operand) {index : Int}
    (hlo : 0 ≤ index) (hhi : index < assignment.size) :
    (assignment.extend value).valueAt? index = assignment.valueAt? index := by
  rw [extend, valueAt?_of_nonneg _ hlo, valueAt?_of_nonneg _ hlo, Array.getElem?_push_lt (by omega),
    Array.getElem?_eq_getElem (by omega)]

theorem Assignment.classAt_extend_size (p : Modulus) (assignment : Assignment) (z : ZMod p.size) :
    (assignment.extend (.element (.ofClass p z))).classAt p assignment.size = z := by
  rw [classAt, extend, valueAt?_of_nonneg _ (by omega), Int.toNat_natCast, Array.getElem?_push_size]
  exact Element.residue_ofClass p z

theorem Assignment.over_extend {p : Modulus} {assignment : Assignment} {value : Operand} :
    (assignment.extend value).Over p ↔
      assignment.Over p ∧ ∃ z, value = .element (.ofClass p z) := by
  simp only [Over, extend, Array.mem_push]
  constructor
  · intro h
    exact ⟨fun entry hmem => h entry (.inl hmem), h value (.inr rfl)⟩
  · rintro ⟨hover, hvalue⟩ entry (hmem | rfl)
    · exact hover entry hmem
    · exact hvalue

namespace ProductConstraint

/-- A constraint over a field is met exactly if all its variables have values and
    the product of the first two affine functions is the third. -/
theorem holds_eq_ok_true_iff {p : Modulus} {assignment : Assignment} (hover : assignment.Over p)
    {c : ProductConstraint} (hleft : c.left.Over p) (hright : c.right.Over p)
    (hresult : c.result.Over p) :
    c.holds assignment = .ok true ↔
      c.left.Covered assignment ∧ c.right.Covered assignment ∧ c.result.Covered assignment ∧
        c.left.denote p (assignment.classAt p) * c.right.denote p (assignment.classAt p) =
          c.result.denote p (assignment.classAt p) := by
  rw [holds, bind_eq_ok_iff]
  constructor
  · rintro ⟨a, ha, h⟩
    obtain ⟨b, hb, h⟩ := bind_eq_ok_iff.mp h
    obtain ⟨product, hproduct, h⟩ := bind_eq_ok_iff.mp h
    obtain ⟨r, hr, h⟩ := bind_eq_ok_iff.mp h
    obtain ⟨hcoverLeft, rfl⟩ := (Combination.evaluate_eq_ok_iff hover hleft a).mp ha
    obtain ⟨hcoverRight, rfl⟩ := (Combination.evaluate_eq_ok_iff hover hright b).mp hb
    obtain ⟨hcoverResult, rfl⟩ := (Combination.evaluate_eq_ok_iff hover hresult r).mp hr
    rw [Element.mul_ofClass] at hproduct
    obtain rfl := Except.ok.inj hproduct
    have hsame := Except.ok.inj h
    rw [Element.same_ofClass] at hsame
    exact ⟨hcoverLeft, hcoverRight, hcoverResult, hsame⟩
  · rintro ⟨hcoverLeft, hcoverRight, hcoverResult, hproduct⟩
    refine ⟨_, (Combination.evaluate_eq_ok_iff hover hleft _).mpr ⟨hcoverLeft, rfl⟩, ?_⟩
    refine bind_eq_ok_iff.mpr
      ⟨_, (Combination.evaluate_eq_ok_iff hover hright _).mpr ⟨hcoverRight, rfl⟩, ?_⟩
    refine bind_eq_ok_iff.mpr ⟨_, Element.mul_ofClass p _ _, ?_⟩
    refine bind_eq_ok_iff.mpr
      ⟨_, (Combination.evaluate_eq_ok_iff hover hresult _).mpr ⟨hcoverResult, rfl⟩, ?_⟩
    exact congrArg Except.ok ((Element.same_ofClass p _ _).mpr hproduct)

theorem holds_congr {c : ProductConstraint} {first second : Assignment}
    (hleft : ∀ i ∈ c.left.vars, first.valueAt? i = second.valueAt? i)
    (hright : ∀ i ∈ c.right.vars, first.valueAt? i = second.valueAt? i)
    (hresult : ∀ i ∈ c.result.vars, first.valueAt? i = second.valueAt? i) :
    c.holds first = c.holds second := by
  rw [holds, holds, Combination.evaluate_congr hleft, Combination.evaluate_congr hright,
    Combination.evaluate_congr hresult]

end ProductConstraint

namespace ConstraintSystem

theorem isSatisfied_eq_ok_true_iff (s : ConstraintSystem) (assignment : Assignment) :
    s.isSatisfied assignment = .ok true ↔ ∀ c ∈ s.constraints, c.holds assignment = .ok true := by
  rw [isSatisfied]
  simp only [← Array.mem_toList_iff]
  generalize s.constraints.toList = constraints
  induction constraints with
  | nil => simp [pure, Except.pure]
  | cons c rest ih =>
    rw [List.forall_mem_cons, ← ih, List.allM_cons, bind_eq_ok_iff]
    constructor
    · rintro ⟨met, hmet, hrest⟩
      cases met with
      | true => exact ⟨hmet, hrest⟩
      | false => cases hrest
    · rintro ⟨hmet, hrest⟩
      exact ⟨true, hmet, hrest⟩

/-- The assignment gives each declared variable one residue, and all constraints
    hold. -/
structure Solves (s : ConstraintSystem) (assignment : Assignment) : Prop where
  over_field : assignment.Over s.modulus
  size_eq : assignment.size = s.numVars
  satisfied : s.isSatisfied assignment = .ok true

/-- Every constraint is one between handles of the system. -/
def WellFormed (s : ConstraintSystem) : Prop :=
  ∀ c ∈ s.constraints, s.Declares c.left ∧ s.Declares c.right ∧ s.Declares c.result

theorem isSatisfied_push_iff (s : ConstraintSystem) (c : ProductConstraint) (assignment : Assignment) :
    (s.push c).isSatisfied assignment = .ok true ↔
      s.isSatisfied assignment = .ok true ∧ c.holds assignment = .ok true := by
  simp only [isSatisfied_eq_ok_true_iff, push_constraints, Array.mem_push]
  constructor
  · intro h
    exact ⟨fun d hd => h d (.inl hd), h c (.inr rfl)⟩
  · rintro ⟨hs, hc⟩ d (hd | rfl)
    · exact hs d hd
    · exact hc

theorem isSatisfied_next (s : ConstraintSystem) (assignment : Assignment) :
    s.next.isSatisfied assignment = s.isSatisfied assignment :=
  rfl

/-- At a solution of a gate the new variable has the value of the product,
    whatever the other constraints are. -/
theorem evaluate_nextVar_of_gate {s : ConstraintSystem} {a b : Combination} (ha : s.Declares a)
    (hb : s.Declares b) {assignment : Assignment} (hover : assignment.Over s.modulus)
    (hsat : (s.gate a b).isSatisfied assignment = .ok true) {x y : ZMod s.modulus.size}
    (hx : a.evaluate assignment = .ok (.ofClass s.modulus x))
    (hy : b.evaluate assignment = .ok (.ofClass s.modulus y)) :
    s.nextVar.evaluate assignment = .ok (.ofClass s.modulus (x * y)) := by
  rw [gate, isSatisfied_push_iff] at hsat
  obtain ⟨-, -, hcovered, hproduct⟩ :=
    (ProductConstraint.holds_eq_ok_true_iff hover ha.over_field hb.over_field s.over_nextVar).mp hsat.2
  obtain ⟨-, hx⟩ := (Combination.evaluate_eq_ofClass_iff hover ha.over_field x).mp hx
  obtain ⟨-, hy⟩ := (Combination.evaluate_eq_ofClass_iff hover hb.over_field y).mp hy
  exact (Combination.evaluate_eq_ofClass_iff hover s.over_nextVar _).mpr
    ⟨hcovered, by rw [← hx, ← hy, ← hproduct]⟩

/-- An assignment to all declared variables has a value for every handle. -/
theorem Declares.covered {s : ConstraintSystem} {x : Combination} (hx : s.Declares x)
    {assignment : Assignment} (hsize : s.numVars ≤ assignment.size) : x.Covered assignment := by
  intro entry hmem
  obtain ⟨hlo, hhi⟩ := hx.vars entry.1 (List.mem_map_of_mem hmem)
  rw [assignment.valueAt?_of_nonneg hlo, Array.getElem?_eq_getElem (by omega)]
  rfl

theorem Declares.valueAt?_extend {s : ConstraintSystem} {x : Combination} (hx : s.Declares x)
    {assignment : Assignment} (hsize : assignment.size = s.numVars) (value : Operand) :
    ∀ i ∈ x.vars, (assignment.extend value).valueAt? i = assignment.valueAt? i := by
  intro i hi
  obtain ⟨hlo, hhi⟩ := hx.vars i hi
  exact assignment.valueAt?_extend_of_lt value hlo (by omega)

/-- A value for one more variable does not change whether the constraints hold. -/
theorem WellFormed.isSatisfied_extend {s : ConstraintSystem} (hwell : s.WellFormed)
    {assignment : Assignment} (hsize : assignment.size = s.numVars) (value : Operand) :
    s.isSatisfied (assignment.extend value) = .ok true ↔ s.isSatisfied assignment = .ok true := by
  simp only [isSatisfied_eq_ok_true_iff]
  refine forall₂_congr fun c hc => ?_
  obtain ⟨hleft, hright, hresult⟩ := hwell c hc
  rw [ProductConstraint.holds_congr (hleft.valueAt?_extend hsize value)
    (hright.valueAt?_extend hsize value) (hresult.valueAt?_extend hsize value)]

/-- The value that a gate forces on its variable. -/
def product (s : ConstraintSystem) (a b : Combination) (assignment : Assignment) : Operand :=
  .element (.ofClass s.modulus (a.denote s.modulus (assignment.classAt s.modulus) *
    b.denote s.modulus (assignment.classAt s.modulus)))

/-- The solutions after a gate are those before it, each with the product as the
    value of the new variable. So a gate neither loses a solution nor leaves a
    choice. -/
theorem solves_gate_iff {s : ConstraintSystem} (hwell : s.WellFormed) {a b : Combination}
    (ha : s.Declares a) (hb : s.Declares b) (assignment : Assignment) :
    (s.gate a b).Solves assignment ↔
      ∃ before, s.Solves before ∧ assignment = before.extend (s.product a b before) := by
  have hholds {before : Assignment} (hsize : before.size = s.numVars)
      (hover : before.Over s.modulus) (z : ZMod s.modulus.size) :
      (ProductConstraint.mk a b s.nextVar).holds (before.extend (.element (.ofClass s.modulus z))) =
          .ok true ↔
        .element (.ofClass s.modulus z) = s.product a b before := by
    have hover' := Assignment.over_extend.mpr ⟨hover, z, rfl⟩
    have hagree {x : Combination} (hx : s.Declares x) :
        x.denote s.modulus
            ((before.extend (.element (.ofClass s.modulus z))).classAt s.modulus) =
          x.denote s.modulus (before.classAt s.modulus) :=
      Combination.denote_congr fun i hi => by
        rw [Assignment.classAt, Assignment.classAt, hx.valueAt?_extend hsize _ i hi]
    have hcovered {x : Combination} (hx : s.next.Declares x) :
        x.Covered (before.extend (.element (.ofClass s.modulus z))) :=
      hx.covered (by rw [Assignment.size_extend, hsize, next_numVars])
    rw [ProductConstraint.holds_eq_ok_true_iff (c := ⟨a, b, s.nextVar⟩) hover' ha.over_field hb.over_field
      s.over_nextVar]
    simp only [hcovered ha.next, hcovered hb.next, hcovered s.declares_nextVar, true_and,
      hagree ha, hagree hb, product, Operand.element.injEq, Element.ofClass_inj]
    rw [nextVar, order, Combination.denote_var, ← hsize, Assignment.classAt_extend_size, eq_comm]
  constructor
  · rintro ⟨hover, hsize, hsat⟩
    rw [gate_modulus] at hover
    rw [gate_numVars] at hsize
    obtain ⟨before, value, rfl⟩ := assignment.exists_extend (by omega)
    obtain ⟨hbefore, z, rfl⟩ := Assignment.over_extend.mp hover
    rw [Assignment.size_extend, Nat.add_right_cancel_iff] at hsize
    rw [gate, isSatisfied_push_iff, isSatisfied_next, hwell.isSatisfied_extend hsize] at hsat
    exact ⟨before, ⟨hbefore, hsize, hsat.1⟩, by rw [(hholds hsize hbefore z).mp hsat.2]⟩
  · rintro ⟨before, ⟨hover, hsize, hsat⟩, rfl⟩
    refine ⟨Assignment.over_extend.mpr ⟨hover, _, rfl⟩, ?_, ?_⟩
    · rw [Assignment.size_extend, hsize, gate_numVars]
    · rw [gate, isSatisfied_push_iff, isSatisfied_next, hwell.isSatisfied_extend hsize]
      exact ⟨hsat, (hholds hsize hover _).mpr rfl⟩

theorem WellFormed.push {s : ConstraintSystem} (hwell : s.WellFormed) {c : ProductConstraint}
    (hleft : s.Declares c.left) (hright : s.Declares c.right) (hresult : s.Declares c.result) :
    (s.push c).WellFormed := by
  intro d hd
  rw [push_constraints, Array.mem_push] at hd
  obtain hd | rfl := hd
  · obtain ⟨hl, hr, ht⟩ := hwell d hd
    exact ⟨hl.push c, hr.push c, ht.push c⟩
  · exact ⟨hleft.push d, hright.push d, hresult.push d⟩

theorem WellFormed.next {s : ConstraintSystem} (hwell : s.WellFormed) : s.next.WellFormed := by
  intro c hc
  obtain ⟨hleft, hright, hresult⟩ := hwell c hc
  exact ⟨Declares.next hleft, Declares.next hright, Declares.next hresult⟩

theorem wellFormed_empty (p : Modulus) (bound : TermBound) : (empty p bound).WellFormed := by
  intro c hc
  simp [empty] at hc

/-- Nothing is to be assigned where nothing is declared. -/
theorem solves_empty (p : Modulus) (bound : TermBound) : (empty p bound).Solves #[] where
  over_field entry hentry := absurd hentry (Array.not_mem_empty entry)
  size_eq := rfl
  satisfied := rfl

/-- One system results from another by declaring variables and posing constraints. -/
structure Precedes (s t : ConstraintSystem) : Prop where
  modulus_eq : t.modulus = s.modulus
  numVars_le : s.numVars ≤ t.numVars
  isSatisfied : ∀ {assignment : Assignment}, t.isSatisfied assignment = .ok true →
    s.isSatisfied assignment = .ok true

theorem precedes_refl (s : ConstraintSystem) : s.Precedes s :=
  ⟨rfl, le_rfl, id⟩

theorem Precedes.trans {s t u : ConstraintSystem} (hst : s.Precedes t) (htu : t.Precedes u) :
    s.Precedes u :=
  ⟨htu.modulus_eq.trans hst.modulus_eq, hst.numVars_le.trans htu.numVars_le,
    fun hsat => hst.isSatisfied (htu.isSatisfied hsat)⟩

theorem precedes_next (s : ConstraintSystem) : s.Precedes s.next :=
  ⟨rfl, Nat.le_succ s.numVars, id⟩

theorem precedes_push (s : ConstraintSystem) (c : ProductConstraint) : s.Precedes (s.push c) :=
  ⟨rfl, le_rfl, fun {assignment} hsat => ((isSatisfied_push_iff s c assignment).mp hsat).1⟩

theorem Precedes.declares {s t : ConstraintSystem} (h : s.Precedes t) {x : Combination}
    (hx : s.Declares x) : t.Declares x :=
  hx.mono h.modulus_eq h.numVars_le

/-- One system results from another by gates between handles alone. -/
inductive Extends (s : ConstraintSystem) : ConstraintSystem → Prop where
  | refl : Extends s s
  | gate {t : ConstraintSystem} {a b : Combination} (h : Extends s t) (ha : t.Declares a)
      (hb : t.Declares b) : Extends s (t.gate a b)

theorem Extends.trans {s t u : ConstraintSystem} (hst : s.Extends t) (htu : t.Extends u) :
    s.Extends u := by
  induction htu with
  | refl => exact hst
  | gate _ ha hb ih => exact ih.gate ha hb

/-- The system with another journal, which says nothing about its constraints. -/
def noted (s : ConstraintSystem) (journal : Journal) : ConstraintSystem :=
  { s with journal := journal }

theorem solves_noted_iff (s : ConstraintSystem) (journal : Journal) (assignment : Assignment) :
    (s.noted journal).Solves assignment ↔ s.Solves assignment :=
  ⟨fun ⟨hover, hsize, hsat⟩ => ⟨hover, hsize, hsat⟩, fun ⟨hover, hsize, hsat⟩ => ⟨hover, hsize, hsat⟩⟩

theorem precedes_noted (s : ConstraintSystem) (journal : Journal) : s.Precedes (s.noted journal) :=
  ⟨rfl, le_rfl, id⟩

theorem WellFormed.noted {s : ConstraintSystem} (hwell : s.WellFormed) (journal : Journal) :
    (s.noted journal).WellFormed := by
  intro c hc
  obtain ⟨hleft, hright, hresult⟩ := hwell c hc
  have hprecedes := s.precedes_noted journal
  exact ⟨hprecedes.declares hleft, hprecedes.declares hright, hprecedes.declares hresult⟩

/-- One system results from another by gates between handles, with events noted among them. -/
inductive Continues (s : ConstraintSystem) : ConstraintSystem → Prop where
  | refl : Continues s s
  | gate {t : ConstraintSystem} {a b : Combination} (h : Continues s t) (ha : t.Declares a)
      (hb : t.Declares b) : Continues s (t.gate a b)
  | noted {t : ConstraintSystem} (h : Continues s t) (journal : Journal) :
      Continues s (t.noted journal)

theorem Continues.trans {s t u : ConstraintSystem} (hst : s.Continues t) (htu : t.Continues u) :
    s.Continues u := by
  induction htu with
  | refl => exact hst
  | gate _ ha hb ih => exact ih.gate ha hb
  | noted _ journal ih => exact ih.noted journal

/-- What satisfies a system satisfied it before its last gates, and so on. -/
theorem Continues.precedes {s t : ConstraintSystem} (h : s.Continues t) : s.Precedes t := by
  induction h with
  | refl => exact s.precedes_refl
  | @gate t _ _ _ _ _ ih => exact ih.trans (t.precedes_next.trans (precedes_push _ _))
  | noted _ journal ih => exact ih.trans (precedes_noted _ journal)

theorem Continues.wellFormed {s t : ConstraintSystem} (h : s.Continues t) (hwell : s.WellFormed) :
    t.WellFormed := by
  induction h with
  | refl => exact hwell
  | @gate t _ _ _ ha hb ih => exact ih.next.push ha.next hb.next t.declares_nextVar
  | noted _ journal ih => exact ih.noted journal

/-- Each solution extends in exactly one way over the gates that follow, and the
    values of the variables before them stay. -/
theorem Continues.exists_extension {s t : ConstraintSystem} (h : s.Continues t) (hwell : s.WellFormed) :
    ∃ extension : Assignment → Assignment,
      (∀ after, t.Solves after ↔ ∃ before, s.Solves before ∧ after = extension before) ∧
      ∀ before, s.Solves before → ∀ i : Int, 0 ≤ i → i < s.numVars →
        (extension before).valueAt? i = before.valueAt? i := by
  induction h with
  | refl => exact ⟨id, by simp, by simp⟩
  | @gate t a b h ha hb ih =>
    obtain ⟨extension, hsolves, hvalues⟩ := ih
    refine ⟨fun before => (extension before).extend (t.product a b (extension before)), ?_, ?_⟩
    · intro after
      rw [solves_gate_iff (h.wellFormed hwell) ha hb]
      constructor
      · rintro ⟨middle, hmiddle, rfl⟩
        obtain ⟨before, hbefore, rfl⟩ := (hsolves middle).mp hmiddle
        exact ⟨before, hbefore, rfl⟩
      · rintro ⟨before, hbefore, rfl⟩
        exact ⟨extension before, (hsolves _).mpr ⟨before, hbefore, rfl⟩, rfl⟩
    · intro before hbefore i hlo hhi
      have hmiddle := (hsolves _).mpr ⟨before, hbefore, rfl⟩
      have hle := h.precedes.numVars_le
      rw [Assignment.valueAt?_extend_of_lt _ _ hlo (by rw [hmiddle.size_eq]; omega)]
      exact hvalues before hbefore i hlo hhi
  | noted _ journal ih =>
    obtain ⟨extension, hsolves, hvalues⟩ := ih
    exact ⟨extension, fun after => (solves_noted_iff _ journal after).trans (hsolves after), hvalues⟩

/-- Each solution goes on over the gates that follow, and all handles keep their values. -/
theorem Continues.exists_solves {s t : ConstraintSystem} (h : s.Continues t) (hwell : s.WellFormed)
    {before : Assignment} (hbefore : s.Solves before) :
    ∃ after, t.Solves after ∧ ∀ x, s.Declares x → x.evaluate after = x.evaluate before := by
  obtain ⟨extension, hsolves, hvalues⟩ := h.exists_extension hwell
  refine ⟨extension before, (hsolves _).mpr ⟨before, hbefore, rfl⟩, fun x hx => ?_⟩
  refine Combination.evaluate_congr fun i hi => ?_
  obtain ⟨hlo, hhi⟩ := hx.vars i hi
  exact hvalues before hbefore i hlo hhi

theorem Extends.continues {s t : ConstraintSystem} (h : s.Extends t) : s.Continues t := by
  induction h with
  | refl => exact .refl
  | gate _ ha hb ih => exact ih.gate ha hb

theorem Extends.precedes {s t : ConstraintSystem} (h : s.Extends t) : s.Precedes t :=
  h.continues.precedes

theorem Extends.wellFormed {s t : ConstraintSystem} (h : s.Extends t) (hwell : s.WellFormed) :
    t.WellFormed :=
  h.continues.wellFormed hwell

end ConstraintSystem

end WordCircuit
