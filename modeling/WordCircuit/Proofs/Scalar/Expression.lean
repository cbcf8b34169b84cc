import Mathlib.Data.Finset.Option
import WordCircuit.Proofs.Combination.Scaling

namespace WordCircuit

namespace Operand

variable {p : Modulus} {operand : Operand} {term : ZMod p.size}

theorem StandsFor.sub_ofClass (h : operand.StandsFor p term) (a : ZMod p.size) :
    (Element.ofClass p a).sub operand = .ok (.ofClass p (a - term)) := by
  cases h with
  | int n =>
    simp [Element.sub, Element.coerce, Except.map, Number.sub, Number.combine, Element.ofNumber_int]
  | element => exact Element.sub_ofClass p a _

theorem StandsFor.subFrom_ofClass (h : operand.StandsFor p term) (a : ZMod p.size) :
    (Element.ofClass p a).subFrom operand = .ok (.ofClass p (term - a)) := by
  cases h with
  | int n =>
    simp [Element.subFrom, Element.coerce, Except.map, Number.sub, Number.combine, Element.ofNumber_int]
  | element =>
    simp [Element.subFrom, Except.map, Number.sub, Number.combine, Element.ofNumber_int]

end Operand

namespace Scalar

theorem actsOn_of_modulus?_eq_none {x : Scalar} (hnone : x.modulus? = none) (p : Modulus) :
    x.ActsOn p := by
  intro q hq
  rw [hnone] at hq
  cases hq

/-- Embedding an integer gives the residue of its class. -/
theorem residue_ofInt (p : Modulus) (n : Int) : residue (.ofInt p n) = ofClass p n := by
  have hembed := Element.ofNumber_int p n
  rw [Element.ofNumber, Element.ofClass] at hembed
  exact congrArg residue (Element.exact.inj hembed)

/-- The canonical form of a class is the remainder of each integer in it. -/
theorem value_ofClass_intCast (p : Modulus) (n : Int) : (ofClass p n).value = n % p.size :=
  ZMod.val_intCast n

end Scalar

/-- The operations that make one number of two. -/
inductive Operator where
  | sum
  | difference
  | product

namespace Operator

/-- The operation on values as callers hand them in. -/
def onData : Operator → Datum → Datum → Except Fault Datum
  | sum => Datum.add
  | difference => Datum.sub
  | product => Datum.mul

/-- How an element computes the operation with itself on the left. -/
def byLeft : Operator → Element → Operand → Except Fault Element
  | sum => Element.add
  | difference => Element.sub
  | product => Element.mul

/-- How an element computes the operation with itself on the right. Only a difference has to be told
    from its reverse. -/
def byRight : Operator → Element → Operand → Except Fault Element
  | sum => Element.add
  | difference => Element.subFrom
  | product => Element.mul

/-- The operation of a ring that is meant: of the integers, or of residue classes. -/
def inRing {R : Type} [Ring R] : Operator → R → R → R
  | sum, a, b => a + b
  | difference, a, b => a - b
  | product, a, b => a * b

variable {p q : Modulus} {x y : Scalar} {operand : Operand} {z : ZMod p.size}

theorem cast_inRing (op : Operator) (m n : Int) :
    ((op.inRing m n : Int) : ZMod p.size) = op.inRing (m : ZMod p.size) (n : ZMod p.size) := by
  cases op with
  | sum => exact Int.cast_add m n
  | difference => exact Int.cast_sub m n
  | product => exact Int.cast_mul m n

theorem byLeft_ofClass (op : Operator) (h : operand.StandsFor p z) (a : ZMod p.size) :
    op.byLeft (.ofClass p a) operand = .ok (.ofClass p (op.inRing a z)) := by
  cases op with
  | sum => exact h.add_ofClass a
  | difference => exact h.sub_ofClass a
  | product => exact h.mul_ofClass a

theorem byRight_ofClass (op : Operator) (h : operand.StandsFor p z) (b : ZMod p.size) :
    op.byRight (.ofClass p b) operand = .ok (.ofClass p (op.inRing z b)) := by
  cases op with
  | sum => exact (h.add_ofClass b).trans (by rw [inRing, add_comm])
  | difference => exact h.subFrom_ofClass b
  | product => exact (h.mul_ofClass b).trans (by rw [inRing, mul_comm])

theorem byLeft_of_coerce_error (op : Operator) {e : Element} {fault : Fault}
    (h : e.coerce operand = .error fault) : op.byLeft e operand = .error fault := by
  cases op <;> simp only [byLeft, Element.add, Element.sub, Element.mul, h] <;> rfl

/-- An element on the left is asked first. -/
theorem onData_element (op : Operator) (e : Element) (d : Datum) :
    op.onData (.element e) d = (op.byLeft e d.operand).map .element := by
  cases op <;> rfl

theorem onData_integer_element (op : Operator) (hx : x.modulus? = none) (e : Element) :
    op.onData x.datum (.element e) = (op.byRight e x.datum.operand).map .element := by
  obtain ⟨b, rfl⟩ | ⟨n, rfl⟩ := Scalar.eq_of_modulus?_eq_none hx <;> cases op <;> rfl

theorem onData_integers (op : Operator) (hx : x.modulus? = none) (hy : y.modulus? = none) :
    op.onData x.datum y.datum = .ok (.int (op.inRing x.value y.value)) := by
  obtain ⟨a, rfl⟩ | ⟨m, rfl⟩ := Scalar.eq_of_modulus?_eq_none hx <;>
    obtain ⟨b, rfl⟩ | ⟨n, rfl⟩ := Scalar.eq_of_modulus?_eq_none hy <;> cases op <;> rfl

/-- A residue on the left takes an integer or a residue to its own modulus. -/
theorem onData_ofClass_left (op : Operator) (a : ZMod p.size) (hy : y.ActsOn p) :
    op.onData (Scalar.ofClass p a).datum y.datum =
      .ok (Scalar.ofClass p (op.inRing a y.value)).datum := by
  have hdispatch := op.onData_element (.ofClass p a) y.datum
  rw [op.byLeft_ofClass hy.standsFor] at hdispatch
  exact hdispatch

theorem onData_ofClass_right (op : Operator) (hx : x.modulus? = none) (b : ZMod p.size) :
    op.onData x.datum (Scalar.ofClass p b).datum =
      .ok (Scalar.ofClass p (op.inRing (x.value : ZMod p.size) b)).datum := by
  have hacts := Scalar.actsOn_of_modulus?_eq_none hx p
  have hdispatch := op.onData_integer_element hx (.ofClass p b)
  rw [op.byRight_ofClass hacts.standsFor] at hdispatch
  exact hdispatch

/-- Residues to different moduli are refused, the modulus on the left named first. -/
theorem onData_of_ne (op : Operator) (hne : p ≠ q) (a : ZMod p.size) (b : ZMod q.size) :
    op.onData (Scalar.ofClass p a).datum (Scalar.ofClass q b).datum =
      .error (.fieldMismatch (.int p.size) (.int q.size)) := by
  have hcoerce : (Element.ofClass p a).coerce (.element (.ofClass q b)) =
      .error (.fieldMismatch (.int p.size) (.int q.size)) := by
    have hsame : (Order.exact q).same (.exact p) = false := decide_eq_false hne.symm
    rw [Element.coerce, Element.order_ofClass, Element.order_ofClass, hsame]
    rfl
  have hdispatch := op.onData_element (.ofClass p a) (.element (.ofClass q b))
  rw [Datum.operand, op.byLeft_of_coerce_error hcoerce] at hdispatch
  exact hdispatch

end Operator

/-- An arithmetic expression over integers and residues to any moduli. -/
inductive Expression where
  | number (x : Scalar)
  | neg (a : Expression)
  | combine (op : Operator) (a b : Expression)

namespace Expression

/-- Computes the expression from the left to the right, up to the first fault. -/
def run : Expression → Except Fault Datum
  | number x => .ok x.datum
  | neg a => do (← a.run).neg
  | combine op a b => do op.onData (← a.run) (← b.run)

/-- The value of the expression over the integers, where a residue is its canonical form. -/
def value : Expression → Int
  | number x => x.value
  | neg a => -a.value
  | combine op a b => op.inRing a.value b.value

/-- The moduli of the residues in the expression. -/
def moduli : Expression → Finset Modulus
  | number x => x.modulus?.toFinset
  | neg a => a.moduli
  | combine _ a b => a.moduli ∪ b.moduli

/-- The second expression has residues to the modulus in the place of some integers of the first. -/
inductive Embeds (p : Modulus) : Expression → Expression → Prop where
  | keep (x : Scalar) : Embeds p (.number x) (.number x)
  | embed (x : Scalar) (hnone : x.modulus? = none) :
      Embeds p (.number x) (.number (.residue (.ofInt p x.value)))
  | neg {a a' : Expression} (h : Embeds p a a') : Embeds p (.neg a) (.neg a')
  | combine {a a' b b' : Expression} (op : Operator) (hleft : Embeds p a a')
      (hright : Embeds p b b') : Embeds p (.combine op a b) (.combine op a' b')

/-- What comes of an expression with these moduli and this value: without residues an integer, with
    residues to one modulus the class of the value, and otherwise a mismatch of two of the moduli. -/
inductive Outcome (moduli : Finset Modulus) (n : Int) : Except Fault Datum → Prop where
  | integer (x : Scalar) (hnone : x.modulus? = none) (hvalue : x.value = n) (hmoduli : moduli = ∅) :
      Outcome moduli n (.ok x.datum)
  | residue (p : Modulus) (hmoduli : moduli = {p}) : Outcome moduli n (.ok (Scalar.ofClass p n).datum)
  | mismatch (p q : Modulus) (hp : p ∈ moduli) (hq : q ∈ moduli) (hne : p ≠ q) :
      Outcome moduli n (.error (.fieldMismatch (.int p.size) (.int q.size)))

variable {e e' : Expression} {p q : Modulus} {left right : Finset Modulus} {m n : Int}
  {first second : Except Fault Datum}

theorem outcome_number (x : Scalar) : Outcome x.modulus?.toFinset x.value (.ok x.datum) := by
  cases x with
  | truth b => exact .integer (.truth b) rfl rfl rfl
  | integer n => exact .integer (.integer n) rfl rfl rfl
  | residue r =>
    have hacts : (Scalar.residue r).ActsOn r.modulus := fun q hq => (Option.some.inj hq).symm
    obtain hnone | ⟨z, hz⟩ := hacts.cases
    · cases hnone
    · -- The residue is the class of its own canonical form.
      have houtcome : Outcome {r.modulus} (Scalar.ofClass r.modulus z).value
          (.ok (Scalar.ofClass r.modulus (Scalar.ofClass r.modulus z).value).datum) :=
        .residue r.modulus rfl
      rw [Scalar.value_ofClass] at houtcome
      rw [hz]
      exact houtcome

theorem Outcome.neg (h : Outcome left m first) : Outcome left (-m) (do (← first).neg) := by
  cases h with
  | integer x hnone hvalue hmoduli =>
    have hneg : x.datum.neg = .ok (Scalar.integer (-m)).datum := by
      subst hvalue
      obtain ⟨b, rfl⟩ | ⟨n, rfl⟩ := Scalar.eq_of_modulus?_eq_none hnone <;> rfl
    change Outcome left (-m) x.datum.neg
    rw [hneg]
    exact .integer _ rfl rfl hmoduli
  | residue p hmoduli =>
    have hneg : (Scalar.ofClass p m).datum.neg = .ok (Scalar.ofClass p (-m : Int)).datum := by
      change Except.ok (Datum.element (Element.ofClass p m).neg) = _
      rw [Element.neg_ofClass, Int.cast_neg]
      rfl
    change Outcome left (-m) (Scalar.ofClass p m).datum.neg
    rw [hneg]
    exact .residue p hmoduli
  | mismatch p q hp hq hne => exact .mismatch p q hp hq hne

/-- One step: a residue on either side decides what the other operand has to be. -/
theorem Outcome.combine (op : Operator) (hfirst : Outcome left m first)
    (hsecond : Outcome right n second) :
    Outcome (left ∪ right) (op.inRing m n) (do op.onData (← first) (← second)) := by
  cases hfirst with
  | mismatch p q hp hq hne =>
    exact .mismatch p q (Finset.mem_union_left _ hp) (Finset.mem_union_left _ hq) hne
  | integer x hx hvalue hleft =>
    subst hvalue hleft
    cases hsecond with
    | mismatch p q hp hq hne =>
      exact .mismatch p q (Finset.mem_union_right _ hp) (Finset.mem_union_right _ hq) hne
    | integer y hy hvalue hright =>
      subst hvalue hright
      change Outcome _ _ (op.onData x.datum y.datum)
      rw [op.onData_integers hx hy]
      exact .integer (.integer _) rfl rfl rfl
    | residue q hright =>
      change Outcome _ _ (op.onData x.datum (Scalar.ofClass q n).datum)
      rw [op.onData_ofClass_right hx, ← op.cast_inRing]
      exact .residue q (by rw [hright, Finset.empty_union])
  | residue p hleft =>
    cases hsecond with
    | mismatch q r hq hr hne =>
      exact .mismatch q r (Finset.mem_union_right _ hq) (Finset.mem_union_right _ hr) hne
    | integer y hy hvalue hright =>
      have hacts := Scalar.actsOn_of_modulus?_eq_none hy p
      change Outcome _ _ (op.onData (Scalar.ofClass p m).datum y.datum)
      rw [op.onData_ofClass_left _ hacts, hvalue, ← op.cast_inRing]
      exact .residue p (by rw [hleft, hright, Finset.union_empty])
    | residue q hright =>
      change Outcome _ _ (op.onData (Scalar.ofClass p m).datum (Scalar.ofClass q n).datum)
      by_cases hpq : p = q
      · -- The canonical form on the right stands for the same class as the number it came from.
        subst hpq
        rw [op.onData_ofClass_left _ (Scalar.actsOn_ofClass p _), Scalar.value_ofClass,
          ← op.cast_inRing]
        exact .residue p (by rw [hleft, hright, Finset.union_self])
      · rw [op.onData_of_ne hpq]
        exact .mismatch p q (by simp [hleft]) (by simp [hright]) hpq

/-- The moduli and the value of an expression tell what comes of it, however deep it is. -/
theorem outcome_run (e : Expression) : Outcome e.moduli e.value e.run := by
  induction e with
  | number x => exact outcome_number x
  | neg a ih => exact ih.neg
  | combine op a b iha ihb => exact .combine op iha ihb

theorem Outcome.eq_ofClass (h : Outcome {p} n first) : first = .ok (Scalar.ofClass p n).datum := by
  cases h with
  | integer x hnone hvalue hmoduli => exact absurd hmoduli (Finset.singleton_ne_empty p)
  | residue q hmoduli =>
    obtain rfl := Finset.singleton_inj.mp hmoduli
    rfl
  | mismatch q r hq hr hne =>
    exact absurd ((Finset.mem_singleton.mp hq).trans (Finset.mem_singleton.mp hr).symm) hne

/-- With residues to two moduli a computation comes to a step that refuses some of them. -/
theorem Outcome.exists_eq_mismatch (h : Outcome left n first) (hp : p ∈ left) (hq : q ∈ left)
    (hne : p ≠ q) :
    ∃ r ∈ left, ∃ s ∈ left, r ≠ s ∧ first = .error (.fieldMismatch (.int r.size) (.int s.size)) := by
  cases h with
  | integer x hnone hvalue hmoduli =>
    rw [hmoduli] at hp
    exact absurd hp (Finset.notMem_empty p)
  | residue r hmoduli =>
    rw [hmoduli, Finset.mem_singleton] at hp hq
    exact absurd (hp.trans hq.symm) hne
  | mismatch r s hr hs hapart => exact ⟨r, hr, s, hs, hapart, rfl⟩

theorem run_of_moduli_eq (h : e.moduli = {p}) : e.run = .ok (Scalar.ofClass p e.value).datum := by
  have houtcome := outcome_run e
  rw [h] at houtcome
  exact houtcome.eq_ofClass

theorem Embeds.moduli_subset (h : Embeds p e e') : e.moduli ⊆ e'.moduli := by
  induction h with
  | keep x => exact Finset.Subset.refl _
  | embed x hnone =>
    rw [moduli, hnone]
    exact Finset.empty_subset _
  | neg _ ih => exact ih
  | combine _ _ _ ihleft ihright => exact Finset.union_subset_union ihleft ihright

theorem Embeds.subset_insert (h : Embeds p e e') : e'.moduli ⊆ insert p e.moduli := by
  induction h with
  | keep x => exact Finset.subset_insert _ _
  | embed x hnone =>
    exact Finset.singleton_subset_iff.mpr (Finset.mem_insert_self p _)
  | neg _ ih => exact ih
  | combine _ _ _ ihleft ihright =>
    rw [moduli, moduli, Finset.insert_union_distrib]
    exact Finset.union_subset_union ihleft ihright

/-- Embedding integers changes the value by multiples of the modulus only. -/
theorem Embeds.value_eq (h : Embeds p e e') : (e'.value : ZMod p.size) = e.value := by
  induction h with
  | keep x => rfl
  | embed x hnone => rw [value, Scalar.residue_ofInt, Scalar.value_ofClass, value]
  | neg _ ih => rw [value, value, Int.cast_neg, Int.cast_neg, ih]
  | combine op _ _ ihleft ihright =>
    rw [value, value, op.cast_inRing, op.cast_inRing, ihleft, ihright]

theorem Embeds.moduli_eq (h : Embeds p e e') (hmoduli : e.moduli = {p}) : e'.moduli = {p} := by
  apply Finset.Subset.antisymm
  · have hsubset := h.subset_insert
    rwa [hmoduli, Finset.insert_eq_of_mem (Finset.mem_singleton_self p)] at hsubset
  · rw [← hmoduli]
    exact h.moduli_subset

/-- An expression over integers and residues to one modulus, with a residue anywhere in it, comes to
    the residue of its value over the integers, in canonical form, and embedding integers in the
    field beforehand does not change that. A step between residues to two moduli is refused with a
    fault that names both, and with it every expression that has such residues. -/
theorem arithmetic_is_modular :
    (∀ (e : Expression) (p : Modulus), e.moduli = {p} →
      (∃ r : Residue, e.run = .ok (Scalar.residue r).datum ∧ r.modulus = p ∧ r.value < p.size ∧
        (r.value : Int) = e.value % p.size) ∧
      ∀ e', Embeds p e e' → e'.run = e.run) ∧
    (∀ (op : Operator) (a b : Expression) (p q : Modulus), a.moduli = {p} → b.moduli = {q} → p ≠ q →
      (combine op a b).run = .error (.fieldMismatch (.int p.size) (.int q.size))) ∧
    ∀ (e : Expression) (p q : Modulus), p ∈ e.moduli → q ∈ e.moduli → p ≠ q →
      ∃ fault, e.run = .error fault ∧ fault.kind = .value ∧
        ∃ r ∈ e.moduli, ∃ s ∈ e.moduli, r ≠ s ∧ fault = .fieldMismatch (.int r.size) (.int s.size) := by
  refine ⟨?_, ?_, ?_⟩
  · intro e p hmoduli
    have hrun := run_of_moduli_eq hmoduli
    refine ⟨⟨⟨p, _, Scalar.val_lt_size p e.value⟩, hrun, rfl, Scalar.val_lt_size p e.value, ?_⟩, ?_⟩
    · exact Scalar.value_ofClass_intCast p e.value
    · intro e' hembeds
      rw [hrun, run_of_moduli_eq (hembeds.moduli_eq hmoduli), hembeds.value_eq]
  · intro op a b p q ha hb hne
    rw [run, run_of_moduli_eq ha, run_of_moduli_eq hb]
    exact op.onData_of_ne hne _ _
  · intro e p q hp hq hne
    obtain ⟨r, hr, s, hs, hapart, hrun⟩ := (outcome_run e).exists_eq_mismatch hp hq hne
    exact ⟨_, hrun, rfl, r, hr, s, hs, hapart, rfl⟩

/-- Three less the residue of three times its negative plus a hundred comes to six modulo seven, also
    with the residue of the hundred in its place. Residues to the moduli seven and eleven do not
    add, however far down they stand. -/
theorem nested_difference_by_seven :
    let eleven : Modulus := ⟨11, by decide⟩
    let difference (hundred : Scalar) : Expression :=
      .combine .difference (.number (.integer 3)) (.combine .product (.number .threeBySeven)
        (.combine .sum (.neg (.number .threeBySeven)) (.number hundred)))
    let byEleven : Expression := .number (.residue (.ofInt eleven 5))
    (difference (.integer 100)).moduli = {.seven} ∧ (difference (.integer 100)).value = -288 ∧
      (difference (.integer 100)).run = .ok (.element (.exact ⟨.seven, 6, by decide⟩)) ∧
      (difference (.residue (.ofInt .seven 100))).run = (difference (.integer 100)).run ∧
      (Expression.combine .sum (difference (.integer 100)) byEleven).run =
        .error (.fieldMismatch (.int 7) (.int 11)) ∧
      ∃ fault, (Expression.neg (.combine .sum (difference (.integer 100)) byEleven)).run =
        .error fault ∧ fault.kind = .value := by
  intro eleven difference byEleven
  obtain ⟨hsingle, hstep, hmismatch⟩ := arithmetic_is_modular
  have hmoduli : (difference (.integer 100)).moduli = {.seven} := by decide
  obtain ⟨⟨⟨p, value, hlt⟩, hrun, hp, -, hvalue⟩, hembeds⟩ := hsingle _ _ hmoduli
  obtain rfl : p = .seven := hp
  obtain rfl : value = 6 := Int.natCast_inj.mp hvalue
  have hhundred : Embeds .seven (difference (.integer 100))
      (difference (.residue (.ofInt .seven 100))) :=
    .combine _ (.keep _) (.combine _ (.keep _) (.combine _ (.neg (.keep _)) (.embed _ rfl)))
  refine ⟨hmoduli, by decide, hrun, hembeds _ hhundred, ?_, ?_⟩
  · exact hstep _ _ _ .seven eleven hmoduli rfl (by decide)
  · obtain ⟨fault, hrun, hkind, -⟩ :=
      hmismatch (.neg (.combine .sum (difference (.integer 100)) byEleven)) .seven eleven
        (by decide) (by decide) (by decide)
    exact ⟨fault, hrun, hkind⟩

end Expression

end WordCircuit
