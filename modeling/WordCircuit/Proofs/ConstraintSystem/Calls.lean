import WordCircuit.Proofs.ConstraintSystem.Store
import WordCircuit.Proofs.ConstraintSystem.Violations

namespace WordCircuit.ConstraintSystem

/-- A call of one of the operations that a constraint system offers, with its
    arguments. -/
inductive Call where
  | declare
  | satisfy (c : ProductConstraint)
  | allocBool
  | constant (ty : ValueType) (value : Datum)
  | and (ty : ValueType) (a b : Combination)
  | or (ty : ValueType) (a b : Combination)
  | xor (ty : ValueType) (a b : Combination)
  | not (ty : ValueType) (a : Combination)
  | assertTrue (a : Combination)
  | assertEq (ty : ValueType) (a b : Combination)
  | decomposeByte (a : Combination)

namespace Call

def arguments : Call → List Combination
  | declare | allocBool | constant _ _ => []
  | satisfy c => [c.left, c.right, c.result]
  | and _ a b | or _ a b | xor _ a b | assertEq _ a b => [a, b]
  | not _ a | assertTrue a | decomposeByte a => [a]

/-- The combinations among the arguments are well made, over whichever fields. -/
def Proper (call : Call) : Prop :=
  ∀ x ∈ call.arguments, x.Proper

/-- What the call does to a system. Its result is dropped. -/
def action (table : Table) : Call → Action ConstraintSystem Unit
  | declare => discard ConstraintSystem.declare
  | satisfy c => ConstraintSystem.satisfy c
  | allocBool => discard ConstraintSystem.allocBool
  | constant ty value => discard (ConstraintSystem.constant table ty value)
  | and ty a b => discard (ConstraintSystem.and table ty a b)
  | or ty a b => discard ((backend table).or ty a b)
  | xor ty a b => discard (ConstraintSystem.xor table ty a b)
  | not ty a => discard (ConstraintSystem.not table ty a)
  | assertTrue a => ConstraintSystem.assertTrue table a
  | assertEq ty a b => ConstraintSystem.assertEq table ty a b
  | decomposeByte a => discard (ConstraintSystem.decomposeByte table a)

theorem evolving_discard {α : Type} {act : Action ConstraintSystem α} {P : α → Prop}
    (hact : Evolving act P) : Evolving (discard act) fun _ => True :=
  hact.map fun _ _ => trivial

/-- Each call takes a system to one that has evolved from it, whether it succeeds or
    stops at a fault. -/
theorem evolving_action (table : Table) {call : Call} (hcall : call.Proper) :
    Evolving (call.action table) fun _ => True := by
  cases call with
  | declare => exact evolving_discard evolving_declare
  | satisfy c =>
    exact evolving_satisfy ⟨hcall _ (by simp [arguments]), hcall _ (by simp [arguments]),
      hcall _ (by simp [arguments])⟩
  | allocBool => exact evolving_discard evolving_allocBool
  | constant ty value => exact evolving_discard (evolving_constant table ty value)
  | and ty a b =>
    have ha : a.Proper := hcall a (by simp [arguments])
    have hb : b.Proper := hcall b (by simp [arguments])
    exact evolving_discard (evolving_and table ty ha hb)
  | or ty a b =>
    have ha : a.Proper := hcall a (by simp [arguments])
    have hb : b.Proper := hcall b (by simp [arguments])
    exact evolving_discard (evolving_or table ty ha hb)
  | xor ty a b =>
    have ha : a.Proper := hcall a (by simp [arguments])
    have hb : b.Proper := hcall b (by simp [arguments])
    exact evolving_discard (evolving_xor table ty ha hb)
  | not ty a => exact evolving_discard (evolving_not table ty (hcall a (by simp [arguments])))
  | assertTrue a => exact evolving_assertTrue table (hcall a (by simp [arguments]))
  | assertEq ty a b =>
    have ha : a.Proper := hcall a (by simp [arguments])
    have hb : b.Proper := hcall b (by simp [arguments])
    exact evolving_assertEq table ty ha hb
  | decomposeByte a =>
    exact evolving_discard (evolving_decomposeByte table (hcall a (by simp [arguments])))

end Call

/-- The system after calls that are made one after the other. A call that stops at a
    fault leaves behind what it did before, and the next call is made nevertheless. -/
def afterCalls (table : Table) (calls : List Call) (s : ConstraintSystem) : ConstraintSystem :=
  calls.foldl (fun s call => ((call.action table).exec s).2) s

theorem evolves_afterCalls (table : Table) {calls : List Call} (hcalls : ∀ call ∈ calls, call.Proper)
    (s : ConstraintSystem) : s.Evolves (afterCalls table calls s) := by
  induction calls generalizing s with
  | nil => exact .refl
  | cons call calls ih =>
    rw [List.forall_mem_cons] at hcalls
    have hfirst := (Call.evolving_action table hcalls.1 s).1
    exact hfirst.trans (ih hcalls.2 _)

/-- The system is what some calls have left behind on a new one over the field, whatever the
    bound on the number of terms and the table are. All calls are proper: their combinations are
    well made and have no negative indices. Calls with a negative index can succeed as well, but
    they are left out, so that no reachable system has a constraint with such an index. -/
def Reachable (p : Modulus) (s : ConstraintSystem) : Prop :=
  ∃ (bound : TermBound) (table : Table) (calls : List Call),
    (∀ call ∈ calls, call.Proper) ∧ s = afterCalls table calls (empty p bound)

theorem Reachable.modulus_eq {p : Modulus} {s : ConstraintSystem} (hs : Reachable p s) :
    s.modulus = p := by
  obtain ⟨bound, table, calls, hcalls, rfl⟩ := hs
  exact (evolves_afterCalls table hcalls _).precedes.modulus_eq

theorem Reachable.wellFormed {p : Modulus} {s : ConstraintSystem} (hs : Reachable p s) :
    s.WellFormed := by
  obtain ⟨bound, table, calls, hcalls, rfl⟩ := hs
  exact (evolves_afterCalls table hcalls _).wellFormed (wellFormed_empty p bound)

theorem WellFormed.dim_le {s : ConstraintSystem} (hwell : s.WellFormed) {c : ProductConstraint}
    (hc : c ∈ s.constraints) : c.dim ≤ s.numVars := by
  obtain ⟨hleft, hright, hresult⟩ := hwell c hc
  exact max_le (max_le hleft.dim_le hright.dim_le) hresult.dim_le

/-- The variable that is declared next occurs in no constraint. -/
theorem WellFormed.not_mem_vars {s : ConstraintSystem} (hwell : s.WellFormed)
    {c : ProductConstraint} (hc : c ∈ s.constraints) :
    ∀ x ∈ [c.left, c.right, c.result], (s.numVars : Int) ∉ x.vars := by
  obtain ⟨hleft, hright, hresult⟩ := hwell c hc
  have hpart {x : Combination} (hx : s.Declares x) : (s.numVars : Int) ∉ x.vars := fun hmem =>
    lt_irrefl _ (hx.vars _ hmem).2
  simp only [List.forall_mem_cons, List.not_mem_nil, false_implies, implies_true, and_true]
  exact ⟨hpart hleft, hpart hright, hpart hresult⟩

/-- Every sequence of calls on a new system keeps the store of constraints in order, be
    the combinations that they are given handles of the system or not, and whether the
    calls succeed or not. With `s` the system after some of the calls and `t` that after
    all of them: constraints are over the field and below the number of variables,
    variables and constraints are never lost, an index is declared only once and after
    the constraints that are there, and at every assignment to all variables exactly the
    violated constraints are reported, in order. -/
theorem calls_keep_store (p : Modulus) (bound : TermBound) (table : Table) {first rest : List Call}
    (hfirst : ∀ call ∈ first, call.Proper) (hrest : ∀ call ∈ rest, call.Proper)
    {s t : ConstraintSystem} (hs : s = afterCalls table first (empty p bound))
    (ht : t = afterCalls table rest s) :
    (∀ c ∈ t.constraints, (c.left.Over p ∧ c.right.Over p ∧ c.result.Over p) ∧ c.dim ≤ t.numVars) ∧
      (s.numVars ≤ t.numVars ∧ s.constraints.toList <+: t.constraints.toList) ∧
      (∃ index u, declare.exec s = (.ok index, u) ∧
        (∀ c ∈ s.constraints, ∀ x ∈ [c.left, c.right, c.result], (index : Int) ∉ x.vars) ∧
        ∃ later v, declare.exec (afterCalls table rest u) = (.ok later, v) ∧ index < later) ∧
      ∀ assignment : Assignment, assignment.Over p → t.numVars ≤ assignment.size →
        (∃ violated, t.unsatisfied assignment = .ok violated ∧ violated.Pairwise (· < ·) ∧
          (∀ i, i ∈ violated ↔ ∃ c, t.constraints[i]? = some c ∧ ¬c.MetAt p assignment) ∧
          t.isSatisfied assignment = .ok violated.isEmpty) ∧
        (t.isSatisfied assignment = .ok true → s.isSatisfied assignment = .ok true) := by
  have hbefore : (empty p bound).Evolves s := hs ▸ evolves_afterCalls table hfirst _
  have hafter : s.Evolves t := ht ▸ evolves_afterCalls table hrest _
  have hwell : s.WellFormed := hbefore.wellFormed (wellFormed_empty p bound)
  have hwell' : t.WellFormed := hafter.wellFormed hwell
  have hmodulus : t.modulus = p := (hbefore.trans hafter).precedes.modulus_eq
  refine ⟨fun c hc => ?_, ⟨hafter.precedes.numVars_le, hafter.constraints_prefix⟩, ?_, ?_⟩
  · obtain ⟨hleft, hright, hresult⟩ := hwell' c hc
    have hdim := hwell'.dim_le hc
    exact ⟨hmodulus ▸ ⟨hleft.over_field, hright.over_field, hresult.over_field⟩, hdim⟩
  · have hlater := (evolves_afterCalls table hrest s.next).precedes.numVars_le
    exact ⟨_, _, s.exec_declare, fun c hc => hwell.not_mem_vars hc, _, _, exec_declare _, hlater⟩
  · intro assignment hover hsize
    have hover' : assignment.Over t.modulus := hmodulus ▸ hover
    refine ⟨⟨_, hwell'.unsatisfied_eq_ok hover' hsize, t.pairwise_violations assignment, ?_,
      hwell'.isSatisfied_eq_ok hover' hsize⟩, hafter.precedes.isSatisfied⟩
    intro i
    rw [mem_violations_iff, hmodulus]

/-- A bit, and a constraint that is refused because it mentions a variable that was
    never declared. -/
def strayCalls : List Call :=
  [.allocBool, .satisfy ⟨.var (.exact .seven) 4, .one (.exact .seven), .one (.exact .seven)⟩]

/-- The assertion that the bit is one, and one about a combination over another field,
    which is refused. -/
def strictCalls : List Call :=
  [.assertTrue (.var (.exact .seven) 0), .assertTrue (.var (.exact ⟨5, by decide⟩) 0)]

/-- After such calls the assignment of zero to the bit violates the second constraint
    alone, and this is what is reported. -/
theorem strictCalls_keep_store :
    (∀ call ∈ strayCalls, call.Proper) ∧ (∀ call ∈ strictCalls, call.Proper) ∧
      ∃ s t, s = afterCalls (table .seven) strayCalls (empty .seven .unlimited) ∧
        t = afterCalls (table .seven) strictCalls s ∧ s.numVars ≤ t.numVars ∧
        t.numVars ≤ (#[.element (.ofClass .seven 0)] : Assignment).size ∧
        t.unsatisfied #[.element (.ofClass .seven 0)] = .ok [1] ∧
        t.isSatisfied #[.element (.ofClass .seven 0)] = .ok false := by
  have hone : (Combination.one (.exact .seven)).Proper :=
    Combination.proper_ofElement (Element.one_exact .seven ▸ Element.over_ofClass _ _)
  have hstray : ∀ call ∈ strayCalls, call.Proper := by
    have hvar : (Combination.var (.exact .seven) 4).Proper := Combination.proper_var .seven 4
    simp [strayCalls, Call.Proper, Call.arguments, hvar, hone]
  have hstrict : ∀ call ∈ strictCalls, call.Proper := by
    have hvar (p : Modulus) : (Combination.var (.exact p) 0).Proper := Combination.proper_var p 0
    simp [strictCalls, Call.Proper, Call.arguments, hvar]
  have hover : Assignment.Over .seven #[.element (.ofClass .seven 0)] := by
    intro entry hentry
    exact ⟨0, Array.mem_singleton.mp hentry⟩
  obtain ⟨-, hgrows, -, hassignments⟩ :=
    calls_keep_store .seven .unlimited (table .seven) hstray hstrict rfl rfl
  obtain ⟨⟨violated, hunsatisfied, -, -, hsatisfied⟩, -⟩ := hassignments _ hover (by decide)
  have hviolated : violated = [1] := Except.ok.inj (hunsatisfied.symm.trans rfl)
  rw [hviolated] at hunsatisfied hsatisfied
  exact ⟨hstray, hstrict, _, _, rfl, rfl, hgrows.1, by decide, hunsatisfied, hsatisfied⟩

end WordCircuit.ConstraintSystem
