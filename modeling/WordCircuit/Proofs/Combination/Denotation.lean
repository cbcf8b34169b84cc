import WordCircuit.Combination.Evaluate
import WordCircuit.Proofs.Field.Residues

namespace WordCircuit

namespace Assignment

/-- Every entry is a residue modulo `p`, in canonical form. -/
def Over (p : Modulus) (assignment : Assignment) : Prop :=
  ∀ entry ∈ assignment, ∃ z, entry = .element (.ofClass p z)

/-- The residue class at an index, and zero where there is no entry. -/
def classAt (p : Modulus) (assignment : Assignment) (index : Int) : ZMod p.size :=
  match assignment.valueAt? index with
  | some (.element e) => e.residue p
  | _ => 0

theorem Over.valueAt?_eq {p : Modulus} {assignment : Assignment} (hover : assignment.Over p)
    {index : Int} (hsome : (assignment.valueAt? index).isSome) :
    assignment.valueAt? index = some (.element (.ofClass p (assignment.classAt p index))) := by
  obtain ⟨value, hvalue⟩ := Option.isSome_iff_exists.mp hsome
  obtain ⟨position, -, hentry⟩ := Option.bind_eq_some_iff.mp hvalue
  obtain ⟨z, rfl⟩ := hover value (Array.mem_of_getElem? hentry)
  simp [classAt, hvalue]

end Assignment

namespace Terms

/-- All coefficients are residues modulo `p`. -/
def Over (p : Modulus) (entries : List (Int × Element)) : Prop :=
  ∀ entry ∈ entries, entry.2.Over p

/-- The weighted sum of the values that `v` gives to the indices. -/
def denote (p : Modulus) (v : Int → ZMod p.size) (entries : List (Int × Element)) : ZMod p.size :=
  (entries.map fun entry => entry.2.residue p * v entry.1).sum

@[simp] theorem denote_nil (p : Modulus) (v : Int → ZMod p.size) : denote p v [] = 0 :=
  rfl

@[simp] theorem denote_cons (p : Modulus) (v : Int → ZMod p.size) (entry : Int × Element)
    (rest : List (Int × Element)) :
    denote p v (entry :: rest) = entry.2.residue p * v entry.1 + denote p v rest := by
  simp [denote]

theorem denote_congr {p : Modulus} {v v' : Int → ZMod p.size} {entries : List (Int × Element)}
    (hagree : ∀ i ∈ entries.map Prod.fst, v i = v' i) : denote p v entries = denote p v' entries := by
  unfold denote
  congr 1
  apply List.map_congr_left
  intro entry hmem
  rw [hagree entry.1 (List.mem_map_of_mem hmem)]

theorem over_cons {p : Modulus} {entry : Int × Element} {rest : List (Int × Element)} :
    Over p (entry :: rest) ↔ entry.2.Over p ∧ Over p rest := by
  simp [Over]

end Terms

namespace Combination

/-- The combination is over the field of residues modulo `p`: so are its order,
    its constant and its coefficients. -/
structure Over (p : Modulus) (x : Combination) : Prop where
  order : x.order = .exact p
  constant : x.constant.Over p
  terms : Terms.Over p x.terms.entries

/-- The affine function of the variables that a combination stands for. -/
def denote (p : Modulus) (v : Int → ZMod p.size) (x : Combination) : ZMod p.size :=
  x.constant.residue p + Terms.denote p v x.terms.entries

/-- Every variable of the combination has an entry. -/
def Covered (assignment : Assignment) (x : Combination) : Prop :=
  ∀ entry ∈ x.terms.entries, (assignment.valueAt? entry.1).isSome

theorem addTerm_of_covered {p : Modulus} {assignment : Assignment} (hover : assignment.Over p)
    (total : ZMod p.size) {entry : Int × Element} (hentry : entry.2.Over p)
    (hsome : (assignment.valueAt? entry.1).isSome) :
    addTerm assignment (.ofClass p total) entry =
      .ok (.ofClass p (total + entry.2.residue p * assignment.classAt p entry.1)) := by
  rw [addTerm, hover.valueAt?_eq hsome, hentry.eq_ofClass, Element.residue_ofClass]
  simp only [Element.mul_ofClass]
  exact Element.add_ofClass p _ _

/-- The fold behind an evaluation succeeds exactly if every variable has an
    entry, and then it adds the weighted sum to the running total. -/
theorem foldlM_addTerm_eq_ok_iff {p : Modulus} {assignment : Assignment}
    (hover : assignment.Over p) {entries : List (Int × Element)} (hentries : Terms.Over p entries)
    (total : ZMod p.size) (e : Element) :
    entries.foldlM (addTerm assignment) (.ofClass p total) = .ok e ↔
      (∀ entry ∈ entries, (assignment.valueAt? entry.1).isSome) ∧
        e = .ofClass p (total + Terms.denote p (assignment.classAt p) entries) := by
  induction entries generalizing total with
  | nil =>
    simp only [List.foldlM_nil, List.not_mem_nil, Terms.denote_nil, add_zero]
    exact ⟨fun h => ⟨by simp, (Except.ok.inj h).symm⟩, fun h => h.2 ▸ rfl⟩
  | cons entry rest ih =>
    obtain ⟨hentry, hrest⟩ := Terms.over_cons.mp hentries
    rw [List.foldlM_cons, List.forall_mem_cons]
    by_cases hsome : (assignment.valueAt? entry.1).isSome
    · rw [addTerm_of_covered hover total hentry hsome]
      simp only [hsome, true_and, Terms.denote_cons, ← add_assoc]
      exact ih hrest _
    · have hnone : assignment.valueAt? entry.1 = none := by simpa using hsome
      have hfault : addTerm assignment (.ofClass p total) entry = .error (.unassigned entry.1) := by
        rw [addTerm, hnone]
        rfl
      rw [hfault]
      constructor
      · intro h
        cases h
      · intro h
        exact absurd h.1.1 hsome

/-- Evaluation succeeds exactly if every variable has an entry, and then its
    value is that of the affine function. -/
theorem evaluate_eq_ok_iff {p : Modulus} {assignment : Assignment} (hover : assignment.Over p)
    {x : Combination} (hx : x.Over p) (e : Element) :
    x.evaluate assignment = .ok e ↔
      x.Covered assignment ∧ e = .ofClass p (x.denote p (assignment.classAt p)) := by
  rw [evaluate, hx.constant.eq_ofClass, foldlM_addTerm_eq_ok_iff hover hx.terms]
  rfl

theorem evaluate_eq_ofClass_iff {p : Modulus} {assignment : Assignment} (hover : assignment.Over p)
    {x : Combination} (hx : x.Over p) (z : ZMod p.size) :
    x.evaluate assignment = .ok (.ofClass p z) ↔
      x.Covered assignment ∧ x.denote p (assignment.classAt p) = z := by
  rw [evaluate_eq_ok_iff hover hx, Element.ofClass_inj, eq_comm]

end Combination

end WordCircuit
