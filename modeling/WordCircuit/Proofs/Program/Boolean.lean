import WordCircuit.Proofs.Program.Circuit

namespace WordCircuit

open ConstraintSystem

namespace Program

variable {p : Modulus}

/-- The handles of truth values are the same on both sides. -/
def SameTruths {Γ : List ValueType} (env : Env (fun _ => Combination) Γ)
    (env' : Env (BitSliced.Handle Combination) Γ) : Prop :=
  ∀ r : Ref Γ .bool, env .bool r = env' .bool r

theorem SameTruths.push {Γ : List ValueType} {env : Env (fun _ => Combination) Γ}
    {env' : Env (BitSliced.Handle Combination) Γ} (h : SameTruths env env') {x y : Combination}
    (hxy : x = y) :
    SameTruths (env.push x : Env (fun _ => Combination) (.bool :: Γ))
      (env'.push y : Env (BitSliced.Handle Combination) (.bool :: Γ)) := by
  intro r
  cases r with
  | here => exact hxy
  | there r => exact h r

theorem exec_require_ne_ok {x : Except Fault Unit} {fault : Fault} (s : ConstraintSystem)
    (a : Combination) (t : ConstraintSystem) :
    ((liftM x : Action ConstraintSystem Unit) >>= fun _ => throw fault).exec s ≠ (.ok a, t) := by
  rw [Action.exec_bind, Action.exec_liftM]
  cases x <;> simp

/-- On truth values slicing does what the constraint system does. Neither shifts,
    rotates or adds them. -/
theorem operation_agrees {Γ : List ValueType} {env : Env (fun _ => Combination) Γ}
    {env' : Env (BitSliced.Handle Combination) Γ} (henv : SameTruths env env')
    (op : Operation Γ .bool) :
    Action.Agrees (op.run (Host.arithmetic p).backend env) (op.run (Host.circuit p).backend env')
      Eq := by
  have hrequire {wanted : Capability} (hwanted : wanted ∈ [.none, .and, .or, .xor, .not])
      (operation : String) : (BitSliced.table (Host.arithmetic p).backend).require BitSliced.name
        .bool wanted operation = .ok () :=
    BitSliced.require_connective _ .bool hwanted operation
  have hconstant (operation : String) : (table p).require name .bool .none operation = .ok () :=
    require_bool p (by simp) operation
  cases op with
  | constant d =>
    obtain ⟨v, hvalidate, -⟩ | ⟨fault, hvalidate, -⟩ := ValueType.bool.value_cases d
    · refine .check_left (hconstant _) (.check_left hvalidate ?_)
      refine .check_right (hrequire (by simp) _) (.check_right hvalidate ?_)
      refine .check_right (hconstant _) (.check_right (ValueType.validate_datum .bool v) ?_)
      exact Action.agrees_refl _
    · have hfirst {α : Type} (next : Datum → Action ConstraintSystem α) (s : ConstraintSystem) (a : α)
          (t : ConstraintSystem) := Action.exec_liftM_bind_ne_ok hvalidate next s a t
      refine .check_left (hconstant _) (.check_right (hrequire (by simp) _) ?_)
      exact Action.agrees_of_never (hfirst _) (hfirst _)
  | binary op a b =>
    have ha := henv a
    have hb := henv b
    rw [Operation.run, Operation.run, ha, hb]
    cases op with
    | and => exact .check_right (hrequire (by simp) _) (Action.agrees_refl _)
    | or => exact .check_right (hrequire (by simp) _) (Action.agrees_refl _)
    | xor => exact .check_right (hrequire (by simp) _) (Action.agrees_refl _)
    | wrappingAdd =>
      refine Action.agrees_of_never exec_require_ne_ok fun s x t h => ?_
      obtain ⟨fault, hexec, -⟩ := BitSliced.exists_exec_bool_wrappingAdd_error
        (Host.arithmetic p).backend (env' .bool a) (env' .bool b) s
      cases hexec.symm.trans h
  | not a =>
    rw [Operation.run, Operation.run, henv a]
    exact .check_right (hrequire (by simp) _) (Action.agrees_refl _)
  | shift op a amount =>
    refine Action.agrees_of_never (fun s x t => ?_) fun s x t h => ?_
    · cases op <;> exact exec_require_ne_ok s x t
    · obtain ⟨fault, hexec, -⟩ := BitSliced.exists_exec_bool_shift_error
        (Host.arithmetic p).backend op (env' .bool a) amount s
      cases hexec.symm.trans h

theorem mem_of_ref {Γ : List ValueType} {ty : ValueType} (r : Ref Γ ty) : ty ∈ Γ := by
  induction r with
  | here => exact List.mem_cons_self
  | there _ ih => exact List.mem_cons_of_mem _ ih

/-- A program over truth values alone runs over the constraint system as it does over
    slicing. -/
theorem run_agrees (p : Modulus) {Γ : List ValueType} (P : Program Γ)
    (hbool : ∀ ty ∈ Γ, ty = .bool) :
    Action.Agrees (P.run (.arithmetic p)) (P.run (.circuit p)) SameTruths := by
  induction P with
  | start => exact Action.agrees_pure fun r => nomatch r
  | input P ih =>
    refine (ih fun ty hty => hbool ty (List.mem_cons_of_mem _ hty)).bind fun env env' henv => ?_
    refine (Action.agrees_refl allocBool).bind fun x y hxy => ?_
    exact Action.agrees_pure (henv.push hxy)
  | group P ty refs ih =>
    obtain rfl := hbool ty List.mem_cons_self
    refine (ih fun ty hty => hbool ty (List.mem_cons_of_mem _ hty)).bind fun env env' henv => ?_
    have hgroup : Action.Agrees ((Host.arithmetic p).group .bool fun i => env .bool (refs i))
        ((Host.circuit p).group .bool fun i => env' .bool (refs i)) Eq :=
      Action.agrees_pure (henv _)
    exact hgroup.bind fun x y hxy => Action.agrees_pure (henv.push hxy)
  | @operation Γ ty P op ih =>
    obtain rfl := hbool ty List.mem_cons_self
    refine (ih fun ty hty => hbool ty (List.mem_cons_of_mem _ hty)).bind fun env env' henv => ?_
    exact (operation_agrees henv op).bind fun x y hxy => Action.agrees_pure (henv.push hxy)
  | assertTrue P a ih =>
    refine (ih hbool).bind fun env env' henv => ?_
    have hassert : Action.Agrees ((Host.arithmetic p).backend.assertTrue (env .bool a))
        ((Host.circuit p).backend.assertTrue (env' .bool a)) Eq := by
      rw [henv a]
      exact .check_right (require_circuit_assertTrue p _) (Action.agrees_refl _)
    exact hassert.bind fun _ _ _ => Action.agrees_pure henv
  | @assertEq Γ ty P a b ih =>
    obtain rfl := hbool ty (mem_of_ref a)
    refine (ih hbool).bind fun env env' henv => ?_
    have hassert : Action.Agrees ((Host.arithmetic p).backend.assertEq .bool (env .bool a) (env .bool b))
        ((Host.circuit p).backend.assertEq .bool (env' .bool a) (env' .bool b)) Eq := by
      rw [henv a, henv b]
      exact .check_right (require_circuit_assertEq p .bool _) (Action.agrees_refl _)
    exact hassert.bind fun _ _ _ => Action.agrees_pure henv

/-- Over a prime modulus, and at every assignment that satisfies the system which a
    program over truth values has built, the inputs are bits, direct evaluation on
    these bits runs to its end, and each handle evaluates to the truth value that
    direct evaluation gives. A program of accepted steps does build a system. -/
theorem exists_bits_evaluate_eq_direct {p : Modulus} (hp : p.size.Prime) (bound : TermBound)
    {Γ : List ValueType} (P : Program Γ) (hbool : ∀ ty ∈ Γ, ty = .bool) :
    (P.Accepted → ∃ env t, (P.run (.arithmetic p)).exec (empty p bound) = (.ok env, t)) ∧
      ∀ env t, (P.run (.arithmetic p)).exec (empty p bound) = (.ok env, t) →
        ∀ assignment : Assignment, assignment.Over p → t.isSatisfied assignment = .ok true →
          ∃ bits, Carries p bits (P.inputs.map (env .bool)) assignment ∧
            ∀ j, ∃ data, (P.run (.direct bits)).exec j = (.ok data, j) ∧
              ∀ r : Ref Γ .bool, ∃ b,
                (env .bool r).evaluate assignment = .ok (.ofBool p b) ∧ data .bool r = .bool b := by
  have hagrees := run_agrees p P hbool
  constructor
  · intro haccepted
    obtain ⟨env', t, hrun'⟩ := haccepted.exists_exec_circuit p bound
    obtain ⟨env, hrun, -⟩ := hagrees.back hrun'
    exact ⟨env, t, hrun⟩
  · intro env t hrun assignment hover hsat
    obtain ⟨env', hrun', henv⟩ := hagrees.forth hrun
    have hinputs : P.inputs.map (env .bool) = P.inputs.map (env' .bool) :=
      List.map_congr_left fun r _ => henv r
    obtain ⟨_, -, hsolved⟩ := exec_circuit (fun _ => false) hrun'
    obtain ⟨bits, hcarries⟩ : ∃ bits, Carries p bits (P.inputs.map (env' .bool)) assignment := by
      obtain rfl := hsolved.modulus_eq
      exact exists_carries hp fun x hx => hsolved.idempotent x hx assignment hover hsat
    obtain ⟨values, hvalues, hsolved⟩ := exec_circuit bits hrun'
    obtain rfl := hsolved.modulus_eq
    have hholds := hsolved.holds_of_isSatisfied assignment hcarries hover hsat
    refine ⟨bits, hinputs ▸ hcarries, fun j => ⟨data values, (exec_direct hvalues j).1 hholds, ?_⟩⟩
    intro r
    have hreads := Reading.spells_singleton_iff.mp (hsolved.reads .bool r)
    refine ⟨(values .bool r).getLsbD 0, ?_, rfl⟩
    rw [henv r]
    exact hreads.2 assignment hcarries hover hsat

/-- An input and its exclusive or with its own negation. -/
def excludedMiddle : Program [.bool, .bool, .bool] :=
  .operation (.operation (.input .start) (.not .here)) (.binary .xor .here (.there .here))

/-- Over seven elements the input can be one, and then the product with its negation
    is zero. -/
theorem excludedMiddle_evaluates_as_direct :
    ∃ env t, (excludedMiddle.run (.arithmetic .seven)).exec (empty .seven .unlimited) = (.ok env, t) ∧
      ∃ bits, Carries .seven bits (excludedMiddle.inputs.map (env .bool))
          #[.element (.ofBool .seven true), .element (.ofBool .seven false)] ∧
        ∀ j, ∃ data, (excludedMiddle.run (.direct bits)).exec j = (.ok data, j) ∧
          ∀ r : Ref [.bool, .bool, .bool] .bool, ∃ b, (env .bool r).evaluate
              #[.element (.ofBool .seven true), .element (.ofBool .seven false)] =
                .ok (.ofBool .seven b) ∧ data .bool r = .bool b := by
  have hprime : Nat.Prime Modulus.seven.size := by decide
  have hbool : ∀ ty ∈ [ValueType.bool, .bool, .bool], ty = .bool := by decide
  have hover : Assignment.Over .seven
      #[.element (.ofBool .seven true), .element (.ofBool .seven false)] := by
    intro entry hentry
    simp only [List.mem_toArray, List.mem_cons, List.not_mem_nil, or_false] at hentry
    obtain rfl | rfl := hentry <;> exact ⟨_, rfl⟩
  obtain ⟨-, hsound⟩ := exists_bits_evaluate_eq_direct hprime .unlimited excludedMiddle hbool
  exact ⟨_, _, rfl, hsound _ _ rfl _ hover rfl⟩

end Program

end WordCircuit
