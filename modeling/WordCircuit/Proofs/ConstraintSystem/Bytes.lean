import Mathlib.Tactic.NormNum.Prime
import WordCircuit.Proofs.ConstraintSystem.Calls
import WordCircuit.Proofs.ConstraintSystem.Inputs
import WordCircuit.Proofs.Program.Word

namespace WordCircuit.ConstraintSystem

/-- The number whose binary digits are the first of the given bits, lowest first. -/
def numberOf (bits : Nat → Bool) (count : Nat) : Nat :=
  Nat.ofBits fun i : Fin count => bits i

theorem numberOf_succ (bits : Nat → Bool) (count : Nat) :
    numberOf bits (count + 1) = (bits 0).toNat + 2 * numberOf (fun i => bits (i + 1)) count := by
  rw [numberOf, Nat.ofBits_succ, Nat.add_comm]
  rfl

section Sum

variable {p : Modulus}

/-- The loop behind a weighted sum succeeds on combinations over the field, and adds each of
    them with its weight. -/
theorem exists_foldlM_weighted {entries : List (Combination × Nat)}
    (hentries : ∀ entry ∈ entries, entry.1.Over p) {running : Combination} (hrunning : running.Over p) :
    ∃ total, entries.foldlM (fun total entry => do
        total.add (← entry.1.scale (.int (1 <<< entry.2 : Nat)))) running = .ok total ∧
      total.Over p ∧
      (∀ v, total.denote p v = running.denote p v +
        (entries.map fun entry => entry.1.denote p v * 2 ^ entry.2).sum) ∧
      ∀ i ∈ total.vars, i ∈ running.vars ∨ ∃ entry ∈ entries, i ∈ entry.1.vars := by
  induction entries generalizing running with
  | nil => exact ⟨running, rfl, hrunning, by simp, fun i hi => .inl hi⟩
  | cons entry rest ih =>
    rw [List.forall_mem_cons] at hentries
    obtain ⟨hentry, hrest⟩ := hentries
    obtain ⟨weighted, hweighted, hscale⟩ :=
      Combination.exists_scale_int hentry (1 <<< entry.2 : Nat)
    obtain ⟨next, hnext, hadd⟩ := Combination.exists_add hrunning hscale.over_field
    obtain ⟨total, htotal, hover, hsum, hvars⟩ := ih hrest hadd.over_field
    refine ⟨total, ?_, hover, ?_, ?_⟩
    · rw [List.foldlM_cons, bind_eq_ok_iff]
      refine ⟨next, ?_, htotal⟩
      rw [hweighted]
      exact hnext
    · intro v
      have hweight : (((1 <<< entry.2 : Nat) : Int) : ZMod p.size) = 2 ^ entry.2 := by
        rw [Nat.one_shiftLeft]
        push_cast
        rfl
      rw [hsum v, hadd.denote_eq, hscale.denote_eq, hweight, List.map_cons, List.sum_cons, add_assoc]
    · intro i hi
      obtain hi | ⟨other, hother, hi⟩ := hvars i hi
      · obtain hi | hi := hadd.vars i hi
        · exact .inl hi
        · have hi := (hscale.vars i hi).elim id id
          exact .inr ⟨entry, List.mem_cons_self, hi⟩
      · exact .inr ⟨other, List.mem_cons_of_mem _ hother, hi⟩

/-- Where combinations stand for bits, their weighted sum stands for the number of the bits. -/
theorem sum_zipIdx_weighted {xs : List Combination} {v : Int → ZMod p.size} {bits : Nat → Bool}
    (hbits : ∀ (i : Nat) (hi : i < xs.length), xs[i].denote p v = if bits i then 1 else 0)
    (offset : Nat) :
    ((xs.zipIdx offset).map fun entry => entry.1.denote p v * 2 ^ entry.2).sum =
      2 ^ offset * (numberOf bits xs.length : ZMod p.size) := by
  induction xs generalizing bits offset with
  | nil => simp [numberOf]
  | cons x xs ih =>
    have hfirst := hbits 0 (Nat.succ_pos _)
    have hrest := ih (fun i hi => hbits (i + 1) (Nat.succ_lt_succ hi)) (offset + 1)
    rw [List.getElem_cons_zero] at hfirst
    rw [List.zipIdx_cons, List.map_cons, List.sum_cons, hrest, hfirst, List.length_cons, numberOf_succ]
    push_cast
    cases bits 0 <;> simp <;> ring

end Sum

/-- The weighted sum of handles is a handle, and where the handles are bits it has the number of
    the bits as its value. -/
theorem exists_weightedSum {s : ConstraintSystem} {xs : List Combination}
    (hxs : ∀ x ∈ xs, s.Declares x) :
    ∃ total, weightedSum s.order xs = .ok total ∧ s.Declares total ∧
      ∀ (assignment : Assignment) (bits : Nat → Bool), assignment.Over s.modulus →
        Carries s.modulus bits xs assignment →
        total.evaluate assignment = .ok (.ofClass s.modulus (numberOf bits xs.length)) := by
  have hzero : s.Declares (.zero s.order) := by
    rw [Combination.zero, order, Element.zero_exact]
    exact declares_ofElement (Element.over_ofClass _ _)
  have hentries : ∀ entry ∈ xs.zipIdx, s.Declares entry.1 := fun entry hmem =>
    hxs entry.1 (List.fst_mem_of_mem_zipIdx hmem)
  obtain ⟨total, htotal, hover, hsum, hvars⟩ :=
    exists_foldlM_weighted (fun entry hmem => (hentries entry hmem).over_field) hzero.over_field
  have hvars' : ∀ i ∈ total.vars, ∃ x ∈ xs, i ∈ x.vars := by
    intro i hi
    obtain hi | ⟨entry, hmem, hi⟩ := hvars i hi
    · rw [Combination.zero, Combination.vars_ofElement] at hi
      cases hi
    · exact ⟨entry.1, List.fst_mem_of_mem_zipIdx hmem, hi⟩
  refine ⟨total, htotal, ⟨hover, fun i hi => ?_⟩, fun assignment bits hassignment hcarries => ?_⟩
  · obtain ⟨x, hx, hi⟩ := hvars' i hi
    exact (hxs x hx).vars i hi
  · have hbits (i : Nat) (hi : i < xs.length) : xs[i].Covered assignment ∧
        xs[i].denote s.modulus (assignment.classAt s.modulus) = if bits i then 1 else 0 :=
      (Combination.evaluate_eq_ofClass_iff hassignment (hxs _ (List.getElem_mem hi)).over_field _).mp
        (hcarries i hi)
    rw [Combination.evaluate_eq_ofClass_iff hassignment hover]
    constructor
    · intro entry hmem
      obtain ⟨x, hx, hi⟩ := hvars' entry.1 (List.mem_map_of_mem hmem)
      obtain ⟨k, hk, rfl⟩ := List.getElem_of_mem hx
      obtain ⟨other, hother, heq⟩ := List.mem_map.mp hi
      rw [← heq]
      exact (hbits k hk).1 other hother
    · have hnothing (v : Int → ZMod s.modulus.size) : (Combination.zero s.order).denote s.modulus v = 0 := by
        rw [Combination.zero, order, Element.zero_exact, Combination.denote_ofElement,
          Element.residue_ofClass]
      rw [hsum, hnothing, sum_zipIdx_weighted (fun i hi => (hbits i hi).2), pow_zero, one_mul, zero_add]

/-- The demand that a combination and a value are equal. -/
def equality (p : Modulus) (x value : Combination) : ProductConstraint :=
  ⟨x, .ofElement (.ofClass p 1), value⟩

/-- A decomposition declares eight inputs and then poses one constraint, that a combination
    which has the number of the inputs as its value is equal to the handle. -/
theorem exec_decomposeByte (s : ConstraintSystem) {table : Table}
    (hrequire : table.require name .u8 .assertEq "decompose_byte" = .ok ()) (value : Combination) :
    ∃ total, (s.withInputs 8).Declares total ∧
      (∀ (assignment : Assignment) (bits : Nat → Bool), assignment.Over s.modulus →
        Carries s.modulus bits (s.newInputs 8) assignment →
        total.evaluate assignment = .ok (.ofClass s.modulus (numberOf bits 8))) ∧
      (decomposeByte table value).exec s = (do
        satisfy (equality s.modulus total value)
        return s.newInputs 8 : Action ConstraintSystem (List Combination)).exec (s.withInputs 8) := by
  obtain ⟨total, htotal, hdeclares, hnumber⟩ := exists_weightedSum (s.declares_newInputs 8)
  rw [withInputs_modulus, length_newInputs] at hnumber
  refine ⟨total, hdeclares, hnumber, ?_⟩
  have hbits : ((List.range ValueType.u8.width).mapM fun _ => allocBool).exec s =
      (.ok (s.newInputs 8), s.withInputs 8) := s.exec_mapM_allocBool 8
  have hone := exec_one (s.withInputs 8)
  rw [withInputs_modulus] at hone
  unfold decomposeByte
  rw [Action.exec_liftM_bind_of_ok hrequire, Action.exec_bind_of_ok hbits,
    Action.exec_bind_of_ok (Action.exec_get _), Action.exec_liftM_bind_of_ok htotal,
    Action.exec_bind_of_ok hone]
  rfl

section Decomposition

variable {s : ConstraintSystem} {value total : Combination} {assignment : Assignment}
  {z : ZMod s.modulus.size}

variable (hp : s.modulus.size.Prime) (hbyte : 256 ≤ s.modulus.size)
  (hdeclares : (s.withInputs 8).Declares total)
  (hnumber : ∀ (assignment : Assignment) (bits : Nat → Bool), assignment.Over s.modulus →
    Carries s.modulus bits (s.newInputs 8) assignment →
    total.evaluate assignment = .ok (.ofClass s.modulus (numberOf bits 8)))

include hp hbyte hdeclares hnumber

end Decomposition

/-- The modulus of the least field in which bytes stay distinct and some value is no byte. -/
def bytePrime : Modulus :=
  ⟨257, by decide⟩

end WordCircuit.ConstraintSystem
