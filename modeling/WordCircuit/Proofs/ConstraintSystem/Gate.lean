import WordCircuit.ConstraintSystem.Gates
import WordCircuit.Proofs.Action
import WordCircuit.Proofs.Combination.Arithmetic

namespace WordCircuit

namespace Combination

theorem foldl_max_lt_iff (entries : List (Int × Element)) (index bound : Int) :
    entries.foldl (fun greatest entry => max greatest entry.1) index < bound ↔
      index < bound ∧ ∀ entry ∈ entries, entry.1 < bound := by
  induction entries generalizing index with
  | nil => simp
  | cons entry rest ih =>
    rw [List.foldl_cons, ih, max_lt_iff, List.forall_mem_cons, and_assoc]

/-- A bound on the dimension that is not negative bounds every index. -/
theorem dim_le_iff (x : Combination) {bound : Int} (hbound : 0 ≤ bound) :
    x.dim ≤ bound ↔ ∀ i ∈ x.vars, i < bound := by
  rw [dim, vars]
  split
  · rename_i hempty
    simp [hempty, hbound]
  · rename_i index coefficient rest hentries
    rw [Int.add_one_le_iff, foldl_max_lt_iff, hentries]
    simp

/-- Values matter to an evaluation only at the variables of the combination. -/
theorem evaluate_congr {x : Combination} {first second : Assignment}
    (hagree : ∀ i ∈ x.vars, first.valueAt? i = second.valueAt? i) :
    x.evaluate first = x.evaluate second := by
  rw [evaluate, evaluate]
  rw [vars] at hagree
  generalize x.terms.entries = entries at hagree
  generalize x.constant = total
  induction entries generalizing total with
  | nil => rfl
  | cons entry rest ih =>
    rw [List.map_cons, List.forall_mem_cons] at hagree
    have hterm : addTerm first total entry = addTerm second total entry := by
      rw [addTerm, addTerm, hagree.1]
    rw [List.foldlM_cons, List.foldlM_cons, hterm]
    exact bind_congr fun next => ih hagree.2 next

end Combination

namespace ConstraintSystem

/-- The combination is a handle of the system: it is over the system's field and
    mentions declared variables only. -/
structure Declares (s : ConstraintSystem) (x : Combination) : Prop where
  over_field : x.Over s.modulus
  vars : ∀ i ∈ x.vars, 0 ≤ i ∧ i < s.numVars

theorem declares_of_dim_le {s : ConstraintSystem} {x : Combination} (hover : x.Over s.modulus)
    (hnonneg : ∀ i ∈ x.vars, 0 ≤ i) (hdim : x.dim ≤ s.numVars) : s.Declares x :=
  ⟨hover, fun i hi => ⟨hnonneg i hi, (x.dim_le_iff (by omega)).mp hdim i hi⟩⟩

theorem Declares.dim_le {s : ConstraintSystem} {x : Combination} (hx : s.Declares x) :
    x.dim ≤ s.numVars :=
  (x.dim_le_iff (by omega)).mpr fun i hi => (hx.vars i hi).2

theorem Declares.mono {s t : ConstraintSystem} {x : Combination} (hx : s.Declares x)
    (hmodulus : t.modulus = s.modulus) (hvars : s.numVars ≤ t.numVars) : t.Declares x := by
  refine ⟨hmodulus ▸ hx.over_field, fun i hi => ?_⟩
  obtain ⟨hlo, hhi⟩ := hx.vars i hi
  omega

theorem Declares.order_same {s : ConstraintSystem} {x : Combination} (hx : s.Declares x) :
    x.order.same s.order = true := by
  simp [hx.over_field.order, order, Order.same]

theorem checkHandle_of_over {s : ConstraintSystem} {x : Combination} (hx : x.Over s.modulus) :
    s.checkHandle x = .ok () := by
  simp [checkHandle, hx.order, order, Order.same]

theorem Declares.checkHandle {s : ConstraintSystem} {x : Combination} (hx : s.Declares x) :
    s.checkHandle x = .ok () :=
  checkHandle_of_over hx.over_field

/-- What is combined from two handles is a handle. -/
theorem Declares.combines {s : ConstraintSystem} {x y z : Combination} (hx : s.Declares x)
    (hy : s.Declares y) {f : ZMod s.modulus.size → ZMod s.modulus.size → ZMod s.modulus.size}
    (h : Combination.Combines s.modulus f x y z) : s.Declares z :=
  ⟨h.over_field, fun i hi => (h.vars i hi).elim (hx.vars i) (hy.vars i)⟩

/-- Arguments and their product are put together to an exclusive or, which is a handle. -/
theorem Declares.exists_exclusive {s : ConstraintSystem} {x y both : Combination} (hx : s.Declares x)
    (hy : s.Declares y) (hboth : s.Declares both) :
    ∃ sum twice z, x.add y = .ok sum ∧ both.scale (.int 2) = .ok twice ∧ sum.sub twice = .ok z ∧
      s.Declares z := by
  obtain ⟨sum, hsum, hcombinesSum⟩ := Combination.exists_add hx.over_field hy.over_field
  have hsumDeclared := hx.combines hy hcombinesSum
  obtain ⟨twice, htwice, hcombinesTwice⟩ := Combination.exists_scale_int hboth.over_field 2
  have htwiceDeclared := hboth.combines hboth hcombinesTwice
  obtain ⟨z, hz, hcombines⟩ := Combination.exists_sub hsumDeclared.over_field htwiceDeclared.over_field
  exact ⟨sum, twice, z, hsum, htwice, hz, hsumDeclared.combines htwiceDeclared hcombines⟩

/-- A constant is a handle of every system over its field. -/
theorem declares_ofElement {s : ConstraintSystem} {e : Element} (he : e.Over s.modulus) :
    s.Declares (.ofElement e) := by
  constructor
  · exact Combination.over_ofElement he
  · intro i hi
    rw [Combination.vars_ofElement] at hi
    cases hi

theorem declares_one (s : ConstraintSystem) : s.Declares (.ofElement (.ofClass s.modulus 1)) :=
  declares_ofElement (Element.over_ofClass _ _)

theorem check_of_declares {s : ConstraintSystem} {c : ProductConstraint} (hleft : s.Declares c.left)
    (hright : s.Declares c.right) (hresult : s.Declares c.result) : s.check c = .ok () := by
  have hdim : ¬ (s.numVars : Int) < c.dim := by
    rw [ProductConstraint.dim]
    have := hleft.dim_le
    have := hright.dim_le
    have := hresult.dim_le
    omega
  simp [check, checkField, hleft.order_same, hright.order_same, hresult.order_same, hdim]
  rfl

theorem exec_satisfy {s : ConstraintSystem} {c : ProductConstraint} (hleft : s.Declares c.left)
    (hright : s.Declares c.right) (hresult : s.Declares c.result) :
    (satisfy c).exec s = (.ok (), s.push c) := by
  rw [satisfy, Action.exec_bind_of_ok (Action.exec_get s),
    Action.exec_liftM_bind_of_ok (check_of_declares hleft hright hresult), Action.exec_modify]

/-- The system with one more variable. -/
def next (s : ConstraintSystem) : ConstraintSystem :=
  { s with
    numVars := s.numVars + 1
    journal := s.journal.noteCount (s.numVars + 1) (.variables (s.numVars + 1)) }

@[simp] theorem next_modulus (s : ConstraintSystem) : s.next.modulus = s.modulus := rfl

@[simp] theorem next_numVars (s : ConstraintSystem) : s.next.numVars = s.numVars + 1 := rfl

@[simp] theorem next_constraints (s : ConstraintSystem) : s.next.constraints = s.constraints := rfl

@[simp] theorem push_modulus (s : ConstraintSystem) (c : ProductConstraint) :
    (s.push c).modulus = s.modulus := rfl

@[simp] theorem push_numVars (s : ConstraintSystem) (c : ProductConstraint) :
    (s.push c).numVars = s.numVars := rfl

@[simp] theorem push_constraints (s : ConstraintSystem) (c : ProductConstraint) :
    (s.push c).constraints = s.constraints.push c := rfl

/-- The combination of the variable that is declared next. -/
def nextVar (s : ConstraintSystem) : Combination :=
  .var s.order s.numVars

theorem exec_fresh (s : ConstraintSystem) : fresh.exec s = (.ok s.nextVar, s.next) :=
  rfl

theorem over_nextVar (s : ConstraintSystem) : s.nextVar.Over s.modulus :=
  Combination.over_var s.modulus s.numVars

theorem declares_nextVar (s : ConstraintSystem) : s.next.Declares s.nextVar := by
  refine ⟨s.over_nextVar, fun i hi => ?_⟩
  rw [nextVar, order, Combination.vars_var, List.mem_singleton] at hi
  rw [next_numVars]
  omega

theorem Declares.next {s : ConstraintSystem} {x : Combination} (hx : s.Declares x) :
    s.next.Declares x :=
  hx.mono rfl (by simp)

theorem Declares.push {s : ConstraintSystem} {x : Combination} (hx : s.Declares x)
    (c : ProductConstraint) : (s.push c).Declares x :=
  hx.mono rfl (by simp)

/-- The system with a variable that is constrained to be the product of two handles. -/
def gate (s : ConstraintSystem) (a b : Combination) : ConstraintSystem :=
  s.next.push ⟨a, b, s.nextVar⟩

@[simp] theorem gate_numVars (s : ConstraintSystem) (a b : Combination) :
    (s.gate a b).numVars = s.numVars + 1 := rfl

@[simp] theorem gate_modulus (s : ConstraintSystem) (a b : Combination) :
    (s.gate a b).modulus = s.modulus := rfl

theorem Declares.gate {s : ConstraintSystem} {x : Combination} (hx : s.Declares x)
    (a b : Combination) : (s.gate a b).Declares x :=
  hx.next.push _

theorem declares_gate_nextVar (s : ConstraintSystem) (a b : Combination) :
    (s.gate a b).Declares s.nextVar :=
  s.declares_nextVar.push _

/-- All that a multiplication does to a system is one gate. -/
theorem exec_multiply {s : ConstraintSystem} {a b : Combination} (ha : s.Declares a)
    (hb : s.Declares b) :
    (do
      let c ← fresh
      satisfy ⟨a, b, c⟩
      return c).exec s = (.ok s.nextVar, s.gate a b) := by
  rw [Action.exec_bind_of_ok s.exec_fresh,
    Action.exec_bind_of_ok (exec_satisfy ha.next hb.next s.declares_nextVar), Action.exec_pure]
  rfl

end ConstraintSystem

end WordCircuit
