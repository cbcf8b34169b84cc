import WordCircuit.Proofs.ConstraintSystem.Bytes

namespace WordCircuit

namespace ProductConstraint

/-- The three parts of the constraint are over the field. -/
structure Over (p : Modulus) (c : ProductConstraint) : Prop where
  left : c.left.Over p
  right : c.right.Over p
  result : c.result.Over p

/-- The indices that the constraint mentions. -/
def vars (c : ProductConstraint) : List Int :=
  c.left.vars ++ c.right.vars ++ c.result.vars

theorem mem_vars {c : ProductConstraint} {i : Int} :
    i ∈ c.vars ↔ i ∈ c.left.vars ∨ i ∈ c.right.vars ∨ i ∈ c.result.vars := by
  rw [vars, List.mem_append, List.mem_append, or_assoc]

/-- A bound on the dimension of a constraint that is not negative bounds every index in it. -/
theorem dim_le_iff (c : ProductConstraint) {bound : Int} (hbound : 0 ≤ bound) :
    c.dim ≤ bound ↔ ∀ i ∈ c.vars, i < bound := by
  rw [dim, vars, List.forall_mem_append, List.forall_mem_append, max_le_iff, max_le_iff,
    c.left.dim_le_iff hbound, c.right.dim_le_iff hbound, c.result.dim_le_iff hbound]

end ProductConstraint

namespace ConstraintSystem

variable {s t : ConstraintSystem}

/-- A constraint over the field of the system is refused for its dimension only. -/
theorem check_of_over {c : ProductConstraint} (hc : c.Over s.modulus) :
    s.check c = if (s.numVars : Int) < c.dim then .error (.undeclared (c.dim - 1) s.numVars)
      else .ok () := by
  have hfield {x : Combination} (hx : x.Over s.modulus) : s.checkField x = .ok () := by
    simp [checkField, hx.order, order, Order.same]
  unfold check
  rw [hfield hc.left, hfield hc.right, hfield hc.result]
  rfl

theorem exec_satisfy_of_over {c : ProductConstraint} (hc : c.Over s.modulus) :
    (satisfy c).exec s = if (s.numVars : Int) < c.dim then
      (.error (.undeclared (c.dim - 1) s.numVars), s) else (.ok (), s.push c) := by
  rw [satisfy, Action.exec_bind_of_ok (Action.exec_get s), check_of_over hc]
  split <;> rfl

theorem exec_satisfy_cases (t : ConstraintSystem) (c : ProductConstraint) :
    (satisfy c).exec t = (.ok (), t.push c) ∨ ∃ fault, (satisfy c).exec t = (.error fault, t) := by
  rw [satisfy, Action.exec_bind_of_ok (Action.exec_get t)]
  cases t.check c with
  | ok => exact .inl rfl
  | error fault => exact .inr ⟨fault, rfl⟩

/-- From `s` the action comes to a system `t` at which it poses one constraint, and it does
    nothing after that. The constraint mentions the given indices, and beyond them only
    variables of `t`. -/
structure Poses (act : Action ConstraintSystem Unit) (s t : ConstraintSystem) (indices : List Int)
    (c : ProductConstraint) : Prop where
  over_field : c.Over t.modulus
  mentions : indices ⊆ c.vars
  vars : ∀ i ∈ c.vars, i ∈ indices ∨ i < t.numVars
  exec_eq : act.exec s = (satisfy c).exec t

namespace Poses

variable {act : Action ConstraintSystem Unit} {indices : List Int} {c : ProductConstraint}

theorem dim_le_iff (h : Poses act s t indices c) {bound : Int} (hbound : t.numVars ≤ bound) :
    c.dim ≤ bound ↔ ∀ i ∈ indices, i < bound := by
  rw [c.dim_le_iff (by omega)]
  constructor
  · intro hall i hi
    exact hall i (h.mentions hi)
  · intro hall i hi
    obtain hi | hlt := h.vars i hi
    · exact hall i hi
    · omega

theorem exec_of_lt (h : Poses act s t indices c) (hlt : ∀ i ∈ indices, i < t.numVars) :
    act.exec s = (.ok (), t.push c) := by
  have hdim := (h.dim_le_iff le_rfl).mpr hlt
  rw [h.exec_eq, exec_satisfy_of_over h.over_field, if_neg (not_lt.mpr hdim)]

/-- The fault names the greatest of the indices. -/
theorem exec_of_le (h : Poses act s t indices c) {i : Int} (hi : i ∈ indices) (hle : t.numVars ≤ i) :
    ∃ d ∈ indices, (∀ j ∈ indices, j ≤ d) ∧ act.exec s = (.error (.undeclared d t.numVars), t) := by
  have hdim : (t.numVars : Int) < c.dim := by
    by_contra hdim
    have hlt := (h.dim_le_iff le_rfl).mp (not_lt.mp hdim) i hi
    omega
  have hgreatest : ∀ j ∈ indices, j ≤ c.dim - 1 := by
    intro j hj
    have hlt := (h.dim_le_iff hdim.le).mp le_rfl j hj
    omega
  have hsmaller : ¬c.dim ≤ c.dim - 1 := by omega
  rw [h.dim_le_iff (by omega)] at hsmaller
  push Not at hsmaller
  obtain ⟨d, hd, hge⟩ := hsmaller
  obtain rfl : d = c.dim - 1 := le_antisymm (hgreatest d hd) hge
  refine ⟨_, hd, hgreatest, ?_⟩
  rw [h.exec_eq, exec_satisfy_of_over h.over_field, if_pos hdim]

/-- It is enough that the constraint mentions the indices and those of one handle. -/
theorem of_handle {handle : Combination} (hc : c.Over t.modulus) (hhandle : t.Declares handle)
    (hvars : ∀ i, i ∈ c.vars ↔ i ∈ indices ∨ i ∈ handle.vars)
    (hexec : act.exec s = (satisfy c).exec t) : Poses act s t indices c := by
  constructor
  · exact hc
  · intro i hi
    rw [hvars]
    exact .inl hi
  · intro i hi
    rw [hvars] at hi
    exact hi.imp_right fun hi => (hhandle.vars i hi).2
  · exact hexec

/-- What follows the constraint does not matter, if it succeeds without doing anything. -/
theorem exec_discard {α : Type} {act next : Action ConstraintSystem α}
    (hexec : act.exec s = (satisfy c >>= fun _ => next).exec t)
    (hnext : ∃ a, next.exec (t.push c) = (.ok a, t.push c)) :
    (discard act).exec s = (satisfy c).exec t := by
  have hdiscard : (discard act).exec s = (Except.map (fun _ => ()) (act.exec s).1, (act.exec s).2) :=
    Action.exec_map _ act s
  obtain ⟨a, hnext⟩ := hnext
  rw [hdiscard, hexec]
  obtain hsatisfy | ⟨fault, hsatisfy⟩ := exec_satisfy_cases t c
  · rw [Action.exec_bind_of_ok hsatisfy, hnext, hsatisfy]
    rfl
  · rw [Action.exec_bind_of_error hsatisfy, hsatisfy]
    rfl

end Poses

namespace Call

/-- The indices that the arguments mention. -/
def indices (call : Call) : List Int :=
  call.arguments.flatMap Combination.vars

theorem mem_indices {call : Call} {i : Int} : i ∈ call.indices ↔ ∃ x ∈ call.arguments, i ∈ x.vars :=
  List.mem_flatMap

/-- The call is one of those that pose a constraint between their own arguments, and the table
    offers it. -/
def Offered (table : Table) : Call → Prop
  | satisfy _ => True
  | and ty _ _ => table.supports ty .and = true
  | or ty _ _ =>
    table.supports ty .or = true ∧ table.supports ty .and = true ∧ table.supports ty .not = true
  | assertTrue _ => table.supports .bool .assertTrue = true
  | decomposeByte _ => table.supports .u8 .assertEq = true
  | _ => False

/-- The number of variables that the call declares before it checks its constraint. -/
def ownVariables : Call → Nat
  | and _ _ _ | or _ _ _ => 1
  | decomposeByte _ => 8
  | _ => 0

/-- The number of constraints that the call poses before this check: those that keep the bits of
    a decomposition to zero and one. -/
def ownConstraints : Call → Nat
  | decomposeByte _ => 8
  | _ => 0

/-- The system at the time at which the call checks its constraint. -/
def prepared (s : ConstraintSystem) : Call → ConstraintSystem
  | and _ _ _ | or _ _ _ => s.next
  | decomposeByte _ => s.withInputs 8
  | _ => s

theorem numVars_prepared (s : ConstraintSystem) (call : Call) :
    (call.prepared s).numVars = s.numVars + call.ownVariables := by
  cases call with
  | decomposeByte a => exact s.withInputs_numVars 8
  | _ => rfl

theorem exists_constraints_prepared (s : ConstraintSystem) (call : Call) :
    ∃ own : List ProductConstraint, own.length = call.ownConstraints ∧
      (call.prepared s).constraints.toList = s.constraints.toList ++ own := by
  cases call with
  | decomposeByte a => exact s.exists_constraints_withInputs 8
  | _ => exact ⟨[], rfl, (List.append_nil _).symm⟩

variable {table : Table} {ty : ValueType} {a b : Combination}

theorem exec_and_of_over (hoffered : table.supports ty .and = true) (ha : a.Over s.modulus)
    (hb : b.Over s.modulus) :
    (ConstraintSystem.and table ty a b).exec s =
      (ConstraintSystem.satisfy ⟨a, b, s.nextVar⟩ >>= fun _ => pure s.nextVar).exec s.next := by
  have hrequire := Table.require_of_supports hoffered (by decide) name "and"
  unfold ConstraintSystem.and
  rw [Action.exec_liftM_bind_of_ok hrequire, Action.exec_bind_of_ok (Action.exec_get s),
    Action.exec_liftM_bind_of_ok (checkHandle_of_over ha),
    Action.exec_liftM_bind_of_ok (checkHandle_of_over hb), Action.exec_bind_of_ok s.exec_fresh]

/-- Negation leaves the system alone, and the negation of a combination has its variables. -/
theorem exec_not_of_over (hoffered : table.supports ty .not = true) (ha : a.Over s.modulus) :
    ∃ z, (ConstraintSystem.not table ty a).exec s = (.ok z, s) ∧ z.Over s.modulus ∧
      ∀ i, i ∈ z.vars ↔ i ∈ a.vars := by
  have hrequire := Table.require_of_supports hoffered (by decide) name "not"
  obtain ⟨z, hexec, hcombines⟩ := exists_exec_not hrequire ha
  refine ⟨z, hexec, hcombines.over_field, fun i => ?_⟩
  -- A variable occurs where its value matters, and it matters to `1 - a` as it does to `a`.
  rw [Combination.mem_vars_iff hcombines.over_field, Combination.mem_vars_iff ha]
  simp only [hcombines.denote_eq, Combination.denote_ofElement, ne_eq, sub_right_inj]

theorem exec_or_of_over (hoffered : (or ty a b).Offered table) (ha : a.Over s.modulus)
    (hb : b.Over s.modulus) :
    ∃ notA notB, (notA.Over s.modulus ∧ ∀ i, i ∈ notA.vars ↔ i ∈ a.vars) ∧
      (notB.Over s.modulus ∧ ∀ i, i ∈ notB.vars ↔ i ∈ b.vars) ∧
      ((backend table).or ty a b).exec s = (ConstraintSystem.satisfy ⟨notA, notB, s.nextVar⟩ >>=
        fun _ => ConstraintSystem.not table ty s.nextVar).exec s.next := by
  obtain ⟨hor, hand, hnot⟩ := hoffered
  have hrequire := Table.require_of_supports hor (by decide) name "or"
  obtain ⟨notA, hnotA, hoverA, hvarsA⟩ := exec_not_of_over hnot ha
  obtain ⟨notB, hnotB, hoverB, hvarsB⟩ := exec_not_of_over hnot hb
  refine ⟨notA, notB, ⟨hoverA, hvarsA⟩, ⟨hoverB, hvarsB⟩, ?_⟩
  have hnegations : ((backend table).or ty a b).exec s =
      (ConstraintSystem.and table ty notA notB >>= ConstraintSystem.not table ty).exec s := by
    refine (Action.exec_liftM_bind_of_ok hrequire s).trans ?_
    exact (Action.exec_bind_of_ok hnotA).trans (Action.exec_bind_of_ok hnotB)
  rw [hnegations, Action.exec_bind, exec_and_of_over hand hoverA hoverB, ← Action.exec_bind, bind_assoc]
  rfl

theorem poses_and (hoffered : (and ty a b).Offered table) (ha : a.Over s.modulus)
    (hb : b.Over s.modulus) :
    Poses ((and ty a b).action table) s s.next (and ty a b).indices ⟨a, b, s.nextVar⟩ := by
  have hover : ProductConstraint.Over s.next.modulus ⟨a, b, s.nextVar⟩ := ⟨ha, hb, s.over_nextVar⟩
  apply Poses.of_handle hover s.declares_nextVar
  · intro i
    simp [ProductConstraint.mem_vars, mem_indices, arguments, or_assoc]
  · exact Poses.exec_discard (exec_and_of_over hoffered ha hb) ⟨s.nextVar, rfl⟩

/-- A disjunction poses its constraint between the negations of the arguments. -/
theorem poses_or (hoffered : (or ty a b).Offered table) (ha : a.Over s.modulus)
    (hb : b.Over s.modulus) :
    ∃ c, Poses ((or ty a b).action table) s s.next (or ty a b).indices c := by
  obtain ⟨notA, notB, ⟨hnotA, hvarsA⟩, ⟨hnotB, hvarsB⟩, hexec⟩ := exec_or_of_over hoffered ha hb
  have hover : ProductConstraint.Over s.next.modulus ⟨notA, notB, s.nextVar⟩ :=
    ⟨hnotA, hnotB, s.over_nextVar⟩
  refine ⟨_, Poses.of_handle hover s.declares_nextVar ?_ ?_⟩
  · intro i
    simp [ProductConstraint.mem_vars, mem_indices, arguments, hvarsA, hvarsB, or_assoc]
  · have hresult : s.nextVar.Over (s.next.push ⟨notA, notB, s.nextVar⟩).modulus := s.over_nextVar
    obtain ⟨z, hz, -⟩ := exec_not_of_over hoffered.2.2 hresult
    exact Poses.exec_discard hexec ⟨z, hz⟩

theorem poses_assertTrue (hoffered : (assertTrue a).Offered table) (ha : a.Over s.modulus) :
    Poses ((assertTrue a).action table) s s (assertTrue a).indices
      ⟨a, .ofElement (.ofClass s.modulus 1), .ofElement (.ofClass s.modulus 1)⟩ := by
  have hone := s.declares_one
  apply Poses.of_handle ⟨ha, hone.over_field, hone.over_field⟩ hone
  · intro i
    simp [ProductConstraint.mem_vars, mem_indices, arguments]
  · have hrequire := Table.require_of_supports hoffered (by decide) name "assert"
    unfold action ConstraintSystem.assertTrue
    rw [Action.exec_liftM_bind_of_ok hrequire, Action.exec_bind_of_ok (exec_one s),
      Action.exec_bind_of_ok (exec_one s)]

/-- A decomposition compares its argument with a combination of the bits that it has declared. -/
theorem poses_decomposeByte (hoffered : (decomposeByte a).Offered table) (ha : a.Over s.modulus) :
    ∃ c, Poses ((decomposeByte a).action table) s (s.withInputs 8) (decomposeByte a).indices c := by
  have hrequire := Table.require_of_supports hoffered (by decide) name "decompose_byte"
  obtain ⟨total, htotal, -, hexec⟩ := s.exec_decomposeByte hrequire a
  have hone := Combination.over_ofElement (Element.over_ofClass s.modulus 1)
  have hover : (equality s.modulus total a).Over (s.withInputs 8).modulus := by
    have htotalOver := htotal.over_field
    rw [withInputs_modulus] at htotalOver ⊢
    exact ⟨htotalOver, hone, ha⟩
  refine ⟨_, Poses.of_handle hover htotal ?_ ?_⟩
  · intro i
    simp [equality, ProductConstraint.mem_vars, mem_indices, arguments, or_comm]
  · exact Poses.exec_discard hexec ⟨s.newInputs 8, rfl⟩

/-- Each of the calls poses a constraint on the system that it has prepared. -/
theorem exists_poses {call : Call} (hoffered : call.Offered table)
    (hover : ∀ x ∈ call.arguments, x.Over s.modulus) :
    ∃ c, Poses (call.action table) s (call.prepared s) call.indices c := by
  cases call with
  | satisfy c =>
    simp only [arguments, List.forall_mem_cons] at hover
    obtain ⟨hleft, hright, hresult, -⟩ := hover
    have hindices : ∀ i, i ∈ (satisfy c).indices ↔ i ∈ c.vars := by
      intro i
      simp [mem_indices, arguments, ProductConstraint.mem_vars]
    refine ⟨c, ⟨hleft, hright, hresult⟩, fun i hi => (hindices i).mp hi, fun i hi => ?_, rfl⟩
    exact .inl ((hindices i).mpr hi)
  | and ty a b =>
    simp only [arguments, List.forall_mem_cons] at hover
    exact ⟨_, poses_and hoffered hover.1 hover.2.1⟩
  | or ty a b =>
    simp only [arguments, List.forall_mem_cons] at hover
    exact poses_or hoffered hover.1 hover.2.1
  | assertTrue a =>
    simp only [arguments, List.forall_mem_cons] at hover
    exact ⟨_, poses_assertTrue hoffered hover.1⟩
  | decomposeByte a =>
    simp only [arguments, List.forall_mem_cons] at hover
    exact poses_decomposeByte hoffered hover.1
  | _ => exact absurd hoffered not_false

end Call

/-- A call refuses an index that is out of reach once it has declared variables of its own, and
    it accepts every other index: those of its own variables, and all negative ones. The refusal
    names the greatest of the indices and comes before the constraint is appended, but the
    variables and constraints of the call itself stay. -/
theorem call_refuses_index_out_of_reach {table : Table} {call : Call} (hoffered : call.Offered table)
    {s : ConstraintSystem} (hover : ∀ x ∈ call.arguments, x.Over s.modulus) :
    ((∀ i ∈ call.indices, i < s.numVars + call.ownVariables) →
      ∃ t own c, (call.action table).exec s = (.ok (), t) ∧
        t.numVars = s.numVars + call.ownVariables ∧ own.length = call.ownConstraints ∧
        t.constraints.toList = s.constraints.toList ++ own ++ [c] ∧ call.indices ⊆ c.vars) ∧
    ((∃ i ∈ call.indices, s.numVars + call.ownVariables ≤ i) →
      ∃ t own, ∃ d ∈ call.indices, (∀ i ∈ call.indices, i ≤ d) ∧
        (call.action table).exec s = (.error (.undeclared d (s.numVars + call.ownVariables)), t) ∧
        t.numVars = s.numVars + call.ownVariables ∧ own.length = call.ownConstraints ∧
        t.constraints.toList = s.constraints.toList ++ own) := by
  obtain ⟨c, hposes⟩ := Call.exists_poses hoffered hover
  obtain ⟨own, hlength, hown⟩ := call.exists_constraints_prepared s
  have hnumVars := call.numVars_prepared s
  constructor
  · intro hlt
    have hreach : ∀ i ∈ call.indices, i < (call.prepared s).numVars := by
      intro i hi
      rw [hnumVars]
      exact_mod_cast hlt i hi
    have hexec := hposes.exec_of_lt hreach
    refine ⟨_, own, c, hexec, hnumVars, hlength, ?_, hposes.mentions⟩
    rw [push_constraints, Array.toList_push, hown]
  · rintro ⟨i, hi, hle⟩
    have hreach : (call.prepared s).numVars ≤ i := by
      rw [hnumVars]
      exact_mod_cast hle
    obtain ⟨d, hd, hgreatest, hexec⟩ := hposes.exec_of_le hi hreach
    rw [hnumVars] at hexec
    exact ⟨_, own, d, hd, hgreatest, hexec, hnumVars, hlength, hown⟩

/-- The conjunction of the variable at an index with the constant one. -/
def conjunctionAt (index : Int) : Call :=
  .and .bool (.var (.exact .seven) index) (.one (.exact .seven))

theorem over_conjunctionAt (index : Int) : ∀ x ∈ (conjunctionAt index).arguments, x.Over .seven := by
  have hvar : (Combination.var (.exact .seven) index).Over .seven := Combination.over_var .seven index
  have hone : (Combination.one (.exact .seven)).Over .seven :=
    Combination.over_ofElement (Element.one_exact .seven ▸ Element.over_ofClass _ _)
  simp [conjunctionAt, Call.arguments, hvar, hone]

theorem reachable_empty (p : Modulus) (bound : TermBound) : Reachable p (empty p bound) :=
  ⟨bound, table p, [], List.forall_mem_nil _, rfl⟩

/-- A new system has no variables, so that it is the conjunction itself that declares the one at
    zero, and that there is none at minus one. Neither is refused. -/
theorem conjunction_accepts_undeclared :
    Reachable .seven (empty .seven .unlimited) ∧ ∀ index ∈ [(0 : Int), -1],
      (conjunctionAt index).Offered (table .seven) ∧
      (∀ x ∈ (conjunctionAt index).arguments, x.Over .seven) ∧
      index ∈ (conjunctionAt index).indices ∧
      ((empty .seven .unlimited).numVars ≤ index ∨ index < 0) ∧
      ∃ t c, ((conjunctionAt index).action (table .seven)).exec (empty .seven .unlimited) = (.ok (), t) ∧
        t.constraints.toList = [c] ∧ index ∈ c.vars := by
  rw [List.forall_mem_cons, List.forall_mem_singleton]
  refine ⟨reachable_empty _ _, ?_, ?_⟩
  · exact ⟨rfl, over_conjunctionAt 0, by decide, by decide, _, _, rfl, rfl, by decide⟩
  · exact ⟨rfl, over_conjunctionAt (-1), by decide, by decide, _, _, rfl, rfl, by decide⟩

/-- On a new system the conjunction accepts the index zero, that of its own result, and refuses
    the next one. -/
theorem conjunction_refuses_second_index :
    (table .seven).supports .bool .and = true ∧
      (∃ t, ((conjunctionAt 0).action (table .seven)).exec (empty .seven .unlimited) = (.ok (), t)) ∧
      ∃ t, ((conjunctionAt 1).action (table .seven)).exec (empty .seven .unlimited) =
        (.error (.undeclared 1 1), t) ∧ t.constraints.toList = [] := by
  have hoffered (index : Int) : (conjunctionAt index).Offered (table .seven) := rfl
  have haccepts := (call_refuses_index_out_of_reach (hoffered 0) (s := empty .seven .unlimited)
    (over_conjunctionAt 0)).1 (by decide)
  have hrefuses := (call_refuses_index_out_of_reach (hoffered 1) (s := empty .seven .unlimited)
    (over_conjunctionAt 1)).2 (by decide)
  obtain ⟨t, -, -, haccepted, -⟩ := haccepts
  obtain ⟨u, own, d, hd, -, hrefused, -, hlength, hconstraints⟩ := hrefuses
  have hindices : (conjunctionAt 1).indices = [1] := rfl
  rw [hindices, List.mem_singleton] at hd
  subst hd
  have hnone : own = [] := List.length_eq_zero_iff.mp hlength
  rw [hnone] at hconstraints
  exact ⟨rfl, ⟨t, haccepted⟩, u, hrefused, hconstraints⟩

end ConstraintSystem

end WordCircuit
