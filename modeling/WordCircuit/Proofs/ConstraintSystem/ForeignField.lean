import WordCircuit.Proofs.ConstraintSystem.Refusal

namespace WordCircuit

namespace Terms

variable {both : Element → Element → Except Fault Element} {alone : Element → Element}

theorem exists_error_of_mergeStep {merged : Terms} {entry : Int × Element} {fault : Fault}
    (h : mergeStep both alone merged entry = .error fault) :
    ∃ coefficient, both coefficient entry.2 = .error fault := by
  rw [mergeStep] at h
  split at h
  · rename_i coefficient _
    cases hboth : both coefficient entry.2 with
    | ok sum =>
      rw [hboth] at h
      cases h
    | error mismatch =>
      rw [hboth] at h
      obtain rfl := Except.error.inj h
      exact ⟨coefficient, hboth⟩
  · cases h

/-- A merge fails only where two coefficients cannot be brought together. -/
theorem exists_error_of_mergeM {terms other : Terms} {fault : Fault}
    (h : terms.mergeM both alone other = .error fault) : ∃ k l, both k l = .error fault := by
  rw [mergeM_eq_foldlM] at h
  generalize other.entries = entries at h
  induction entries generalizing terms with
  | nil => cases h
  | cons entry rest ih =>
    rw [List.foldlM_cons, bind_eq_error_iff] at h
    obtain hstep | ⟨merged, -, hrest⟩ := h
    · obtain ⟨coefficient, hboth⟩ := exists_error_of_mergeStep hstep
      exact ⟨coefficient, entry.2, hboth⟩
    · exact ih hrest

end Terms

theorem Element.kind_of_sub_eq_error {e f : Element} {fault : Fault}
    (h : e.sub (.element f) = .error fault) : fault.kind = .value := by
  have hcoerce : e.coerce (.element f) = if f.order.same e.order then .ok f.number
      else .error (.fieldMismatch e.order.number f.order.number) := rfl
  rw [sub, hcoerce] at h
  by_cases hsame : f.order.same e.order = true
  · rw [if_pos hsame] at h
    cases h
  · rw [if_neg hsame] at h
    obtain rfl := Except.error.inj h
    rfl

namespace Combination

/-- A difference fails because of its orders only. -/
theorem kind_of_sub_eq_error {x y : Combination} {fault : Fault} (h : x.sub y = .error fault) :
    fault.kind = .value := by
  rw [sub, bind_eq_error_iff] at h
  obtain hcheck | ⟨⟨⟩, -, h⟩ := h
  · unfold checkOrder at hcheck
    split at hcheck
    · cases hcheck
    · obtain rfl := Except.error.inj hcheck
      rfl
  obtain hterms | ⟨terms, -, h⟩ := bind_eq_error_iff.mp h
  · obtain ⟨k, l, hsub⟩ := Terms.exists_error_of_mergeM hterms
    exact Element.kind_of_sub_eq_error hsub
  obtain hconstant | ⟨constant, -, h⟩ := bind_eq_error_iff.mp h
  · exact Element.kind_of_sub_eq_error hconstant
  · cases h

/-- A difference is over the order of both its operands. -/
theorem order_of_sub_eq_ok {x y z : Combination} (h : x.sub y = .ok z) :
    z.order = x.order ∧ y.order.same x.order = true := by
  obtain ⟨⟨⟩, hcheck, h⟩ := bind_eq_ok_iff.mp h
  obtain ⟨terms, -, h⟩ := bind_eq_ok_iff.mp h
  obtain ⟨constant, -, h⟩ := bind_eq_ok_iff.mp h
  obtain rfl := Except.ok.inj h
  refine ⟨rfl, ?_⟩
  unfold checkOrder at hcheck
  split at hcheck
  · assumption
  · cases hcheck

/-- The combination is over some field, wherever its coefficients are from. -/
def InField (x : Combination) : Prop :=
  ∃ q : Modulus, x.order = .exact q

theorem InField.order_eq_of_same {x y : Combination} (hx : x.InField) (hy : y.InField)
    (hsame : y.order.same x.order = true) : y.order = x.order := by
  obtain ⟨q, hq⟩ := hx
  obtain ⟨r, hr⟩ := hy
  rw [hq, hr, Order.same, decide_eq_true_iff] at hsame
  rw [hq, hr, hsame]

end Combination

namespace ConstraintSystem

variable {s : ConstraintSystem} {a b : Combination} {α : Type}

theorem inField_one (s : ConstraintSystem) : (Combination.ofElement (.ofClass s.modulus 1)).InField :=
  ⟨s.modulus, rfl⟩

theorem not_same_of_foreign (ha : a.InField) (hforeign : a.order ≠ s.order) :
    ¬a.order.same s.order = true := by
  obtain ⟨q, hq⟩ := ha
  rw [hq, order, Order.same, decide_eq_true_iff]
  rintro rfl
  exact hforeign hq

theorem same_of_order_eq (hnative : a.order = s.order) : a.order.same s.order = true := by
  rw [hnative, order, Order.same, decide_eq_true_iff]

theorem refuses_checkHandle (ha : a.InField) (hforeign : a.order ≠ s.order)
    (next : Unit → Action ConstraintSystem α) : (liftM (s.checkHandle a) >>= next).Refuses s .value := by
  have hcheck : s.checkHandle a = .error (.handleField a.order.number s.order.number) :=
    if_neg (not_same_of_foreign ha hforeign)
  exact (Action.refuses_of_error hcheck s).bind next

theorem exec_checkHandle (hnative : a.order = s.order) :
    (liftM (s.checkHandle a) : Action ConstraintSystem Unit).exec s = (.ok (), s) := by
  rw [Action.exec_liftM, checkHandle, if_pos (same_of_order_eq hnative)]

/-- Handles are checked before anything is done with them. -/
theorem refuses_checkHandles (ha : a.InField) (hb : b.InField)
    (hforeign : a.order ≠ s.order ∨ b.order ≠ s.order) (next : Unit → Action ConstraintSystem α) :
    (liftM (s.checkHandle a) >>= fun _ => liftM (s.checkHandle b) >>= next).Refuses s .value := by
  by_cases hnative : a.order = s.order
  · have hb' : b.order ≠ s.order := hforeign.resolve_left (not_not.mpr hnative)
    exact (refuses_checkHandle hb hb' next).after (exec_checkHandle hnative)
  · exact refuses_checkHandle ha hnative _

/-- A constraint with a part over another field is not posed. -/
theorem refuses_satisfy {c : ProductConstraint} (hfields : ∀ x ∈ [c.left, c.right, c.result], x.InField)
    (hforeign : ∃ x ∈ [c.left, c.right, c.result], x.order ≠ s.order) : (satisfy c).Refuses s .value := by
  have herror {x : Combination} (hx : x.InField) (hne : x.order ≠ s.order) :
      s.checkField x = .error (.constraintField x.order.number s.order.number) :=
    if_neg (not_same_of_foreign hx hne)
  have hok {x : Combination} (heq : x.order = s.order) : s.checkField x = .ok () :=
    if_pos (same_of_order_eq heq)
  have hcheck : ∃ found, s.check c = .error (.constraintField found s.order.number) := by
    simp only [List.forall_mem_cons] at hfields
    obtain ⟨hleft, hright, hresult, -⟩ := hfields
    unfold check
    by_cases hl : c.left.order = s.order
    · by_cases hr : c.right.order = s.order
      · have hlast : c.result.order ≠ s.order := by
          obtain ⟨x, hx, hne⟩ := hforeign
          simp only [List.mem_cons, List.not_mem_nil, or_false] at hx
          obtain rfl | rfl | rfl := hx
          · exact absurd hl hne
          · exact absurd hr hne
          · exact hne
        rw [hok hl, hok hr, herror hresult hlast]
        exact ⟨_, rfl⟩
      · rw [hok hl, herror hright hr]
        exact ⟨_, rfl⟩
    · rw [herror hleft hl]
      exact ⟨_, rfl⟩
  obtain ⟨found, hcheck⟩ := hcheck
  exact ((Action.refuses_of_error hcheck s).bind _).after (Action.exec_get s)

namespace Call

variable {table : Table} {ty : ValueType}

/-- The table offers what the call asks for, and for a disjunction the negation that it starts
    with. -/
def Declared (table : Table) : Call → Prop
  | and ty _ _ => table.supports ty .and = true
  | or ty _ _ => table.supports ty .or = true ∧ table.supports ty .not = true
  | xor ty _ _ => table.supports ty .xor = true
  | not ty _ => table.supports ty .not = true
  | assertTrue _ => table.supports .bool .assertTrue = true
  | assertEq ty _ _ => table.supports ty .assertEq = true
  | decomposeByte _ => table.supports .u8 .assertEq = true
  | _ => True

theorem refuses_not (hnot : table.supports ty .not = true) (ha : a.InField) (hforeign : a.order ≠ s.order) :
    (ConstraintSystem.not table ty a).Refuses s .value := by
  have hrequire := Table.require_of_supports hnot (by decide) name "not"
  unfold ConstraintSystem.not
  refine .after (a := ()) (by rw [Action.exec_liftM, hrequire]) (.after (Action.exec_get s) ?_)
  exact refuses_checkHandle ha hforeign _

/-- A negation leaves the system alone, whatever comes of it. -/
theorem exec_not_or_refuses (hnot : table.supports ty .not = true) (ha : a.InField) :
    (∃ z, (ConstraintSystem.not table ty a).exec s = (.ok z, s)) ∨
      (ConstraintSystem.not table ty a).Refuses s .value := by
  by_cases hnative : a.order = s.order
  · have hrequire := Table.require_of_supports hnot (by decide) name "not"
    unfold Action.Refuses ConstraintSystem.not
    rw [Action.exec_liftM_bind_of_ok hrequire, Action.exec_bind_of_ok (Action.exec_get s),
      Action.exec_bind_of_ok (exec_checkHandle hnative), Action.exec_bind_of_ok (exec_one s),
      Action.exec_liftM]
    cases hsub : (Combination.ofElement (.ofClass s.modulus 1)).sub a with
    | ok z => exact .inl ⟨z, rfl⟩
    | error fault => exact .inr ⟨fault, rfl, Combination.kind_of_sub_eq_error hsub⟩
  · exact .inr (refuses_not hnot ha hnative)

theorem refuses_and (hand : table.supports ty .and = true) (ha : a.InField) (hb : b.InField)
    (hforeign : a.order ≠ s.order ∨ b.order ≠ s.order) :
    (ConstraintSystem.and table ty a b).Refuses s .value := by
  have hrequire := Table.require_of_supports hand (by decide) name "and"
  unfold ConstraintSystem.and
  refine .after (a := ()) (by rw [Action.exec_liftM, hrequire]) (.after (Action.exec_get s) ?_)
  exact refuses_checkHandles ha hb hforeign _

theorem refuses_xor (hxor : table.supports ty .xor = true) (ha : a.InField) (hb : b.InField)
    (hforeign : a.order ≠ s.order ∨ b.order ≠ s.order) :
    (ConstraintSystem.xor table ty a b).Refuses s .value := by
  have hrequire := Table.require_of_supports hxor (by decide) name "xor"
  unfold ConstraintSystem.xor
  refine .after (a := ()) (by rw [Action.exec_liftM, hrequire]) (.after (Action.exec_get s) ?_)
  exact refuses_checkHandles ha hb hforeign _

/-- A disjunction negates its operands first, and the one over the other field stops it. -/
theorem refuses_or (hor : table.supports ty .or = true) (hnot : table.supports ty .not = true)
    (ha : a.InField) (hb : b.InField) (hforeign : a.order ≠ s.order ∨ b.order ≠ s.order) :
    ((backend table).or ty a b).Refuses s .value := by
  have hrequire := Table.require_of_supports hor (by decide) name "or"
  refine .after (a := ()) (by rw [Action.exec_liftM]; exact congrArg (·, s) hrequire) ?_
  obtain ⟨notA, hexec⟩ | hrefuses := exec_not_or_refuses (s := s) hnot ha
  · have hb' : b.order ≠ s.order := by
      refine hforeign.resolve_left fun hne => ?_
      obtain ⟨fault, hrefused, -⟩ := refuses_not hnot ha hne
      cases hrefused.symm.trans hexec
    exact .after hexec ((refuses_not hnot hb hb').bind _)
  · exact hrefuses.bind _

theorem refuses_assertTrue (hassert : table.supports .bool .assertTrue = true) (ha : a.InField)
    (hforeign : a.order ≠ s.order) : (ConstraintSystem.assertTrue table a).Refuses s .value := by
  have hrequire := Table.require_of_supports hassert (by decide) name "assert"
  unfold ConstraintSystem.assertTrue
  refine .after (a := ()) (by rw [Action.exec_liftM, hrequire]) ?_
  refine .after (exec_one s) (.after (exec_one s) ?_)
  apply refuses_satisfy
  · simp [ha, s.inField_one]
  · exact ⟨a, List.mem_cons_self, hforeign⟩

/-- An equation is refused by the difference of its sides, or for the field of the difference. -/
theorem refuses_assertEq (hassert : table.supports ty .assertEq = true) (ha : a.InField) (hb : b.InField)
    (hforeign : a.order ≠ s.order ∨ b.order ≠ s.order) :
    (ConstraintSystem.assertEq table ty a b).Refuses s .value := by
  have hrequire := Table.require_of_supports hassert (by decide) name "assert_eq"
  unfold ConstraintSystem.assertEq
  refine .after (a := ()) (by rw [Action.exec_liftM, hrequire]) ?_
  cases hsub : a.sub b with
  | error fault =>
    have hkind := Combination.kind_of_sub_eq_error hsub
    exact hkind ▸ (Action.refuses_of_error rfl s).bind _
  | ok difference =>
    obtain ⟨horder, hsame⟩ := Combination.order_of_sub_eq_ok hsub
    have hforeign' : difference.order ≠ s.order := by
      have heq := ha.order_eq_of_same hb hsame
      rw [horder]
      exact hforeign.elim id fun hne => heq ▸ hne
    have hdifference : difference.InField := by
      obtain ⟨q, hq⟩ := ha
      exact ⟨q, horder.trans hq⟩
    refine .after (Action.exec_liftM _ _) (.after (exec_one s) (.after (Action.exec_get s) ?_))
    apply refuses_satisfy
    · have hzero : (Combination.zero s.order).InField := ⟨s.modulus, rfl⟩
      simp [hdifference, s.inField_one, hzero]
    · exact ⟨difference, List.mem_cons_self, hforeign'⟩

/-- A decomposition comes to its argument last, after it has declared the eight bits. -/
theorem exec_decomposeByte_of_foreign (hassert : table.supports .u8 .assertEq = true) (ha : a.InField)
    (hforeign : a.order ≠ s.order) :
    ∃ fault, (ConstraintSystem.decomposeByte table a).exec s = (.error fault, s.withInputs 8) ∧
      fault.kind = .value := by
  have hrequire := Table.require_of_supports hassert (by decide) name "decompose_byte"
  obtain ⟨total, htotal, -, hexec⟩ := s.exec_decomposeByte hrequire a
  have horder : (s.withInputs 8).order = s.order := by rw [order, withInputs_modulus, order]
  have hrefuses : (ConstraintSystem.satisfy (equality s.modulus total a)).Refuses (s.withInputs 8) .value := by
    apply refuses_satisfy
    · have htotal' : total.InField := ⟨_, htotal.over_field.order⟩
      simp [equality, ha, htotal', s.inField_one]
    · refine ⟨a, by simp [equality], ?_⟩
      rw [horder]
      exact hforeign
  obtain ⟨fault, hrefused, hkind⟩ := hrefuses.bind fun _ => pure (s.newInputs 8)
  exact ⟨fault, hexec.trans hrefused, hkind⟩

/-- Whatever the call is, it stops before it does anything to the system but declaring the bits of
    a decomposition. -/
theorem exec_of_foreign {call : Call} (hdeclared : call.Declared table)
    (hfields : ∀ x ∈ call.arguments, x.InField) (hforeign : ∃ x ∈ call.arguments, x.order ≠ s.order) :
    ∃ fault, (call.action table).exec s = (.error fault, s.withInputs call.ownConstraints) ∧
      fault.kind = .value := by
  have hpair {a b : Combination} (h : ∃ x ∈ [a, b], x.order ≠ s.order) :
      a.order ≠ s.order ∨ b.order ≠ s.order := by simpa using h
  have hboth {a b : Combination} (h : ∀ x ∈ [a, b], x.InField) : a.InField ∧ b.InField := by
    simpa using h
  have hsingle {a : Combination} (h : ∃ x ∈ [a], x.order ≠ s.order) : a.order ≠ s.order := by
    simpa using h
  cases call with
  | declare | allocBool | constant =>
    obtain ⟨x, hx, -⟩ := hforeign
    cases hx
  | satisfy c => exact refuses_satisfy hfields hforeign
  | and ty a b =>
    obtain ⟨ha, hb⟩ := hboth hfields
    exact (refuses_and hdeclared ha hb (hpair hforeign)).discard
  | or ty a b =>
    obtain ⟨ha, hb⟩ := hboth hfields
    exact (refuses_or hdeclared.1 hdeclared.2 ha hb (hpair hforeign)).discard
  | xor ty a b =>
    obtain ⟨ha, hb⟩ := hboth hfields
    exact (refuses_xor hdeclared ha hb (hpair hforeign)).discard
  | not ty a =>
    have ha := List.forall_mem_singleton.mp hfields
    exact (refuses_not hdeclared ha (hsingle hforeign)).discard
  | assertTrue a =>
    have ha := List.forall_mem_singleton.mp hfields
    exact refuses_assertTrue hdeclared ha (hsingle hforeign)
  | assertEq ty a b =>
    obtain ⟨ha, hb⟩ := hboth hfields
    exact refuses_assertEq hdeclared ha hb (hpair hforeign)
  | decomposeByte a =>
    have ha := List.forall_mem_singleton.mp hfields
    obtain ⟨fault, hexec, hkind⟩ := exec_decomposeByte_of_foreign hdeclared ha (hsingle hforeign)
    exact ⟨fault, Action.exec_discard_of_error hexec, hkind⟩

end Call

/-- A call that is given a combination over another field fails for its value, and it leaves the
    system as it was. Only a decomposition has declared its eight bits by then, with their
    constraints, and they stay. -/
theorem call_refuses_foreign_argument {table : Table} {call : Call} (hdeclared : call.Declared table)
    {s : ConstraintSystem} (hfields : ∀ x ∈ call.arguments, x.InField)
    (hforeign : ∃ x ∈ call.arguments, x.order ≠ s.order) :
    ∃ fault t own, (call.action table).exec s = (.error fault, t) ∧ fault.kind = .value ∧
      ((∀ a, call ≠ .decomposeByte a) → t = s) ∧
      t.numVars = s.numVars + call.ownConstraints ∧ own.length = call.ownConstraints ∧
      t.constraints.toList = s.constraints.toList ++ own := by
  obtain ⟨fault, hexec, hkind⟩ := Call.exec_of_foreign hdeclared hfields hforeign
  obtain ⟨own, hlength, hconstraints⟩ := s.exists_constraints_withInputs call.ownConstraints
  refine ⟨fault, _, own, hexec, hkind, ?_, s.withInputs_numVars _, hlength, hconstraints⟩
  intro hother
  cases call with
  | decomposeByte a => exact absurd rfl (hother a)
  | _ => rfl

/-- A decomposition of the one of the field with seven elements. -/
def foreignDecomposition : Call :=
  .decomposeByte (.one (.exact .seven))

/-- On a new system over another field it fails, but not without a trace. -/
theorem foreignDecomposition_leaves_bits :
    Reachable bytePrime (empty bytePrime .unlimited) ∧ foreignDecomposition.Declared (table bytePrime) ∧
      (∃ x ∈ foreignDecomposition.arguments, x.order ≠ (empty bytePrime .unlimited).order) ∧
      ∃ fault t, (foreignDecomposition.action (table bytePrime)).exec (empty bytePrime .unlimited) =
        (.error fault, t) ∧ fault.kind = .value ∧ t.numVars = 8 ∧ t.constraints.size = 8 ∧
        (empty bytePrime .unlimited).numVars = 0 ∧ (empty bytePrime .unlimited).constraints.size = 0 := by
  have hdeclared : foreignDecomposition.Declared (table bytePrime) := by
    change (table bytePrime).supports .u8 .assertEq = true
    decide
  have hfields : ∀ x ∈ foreignDecomposition.arguments, x.InField :=
    List.forall_mem_singleton.mpr ⟨.seven, rfl⟩
  have hforeign : ∃ x ∈ foreignDecomposition.arguments, x.order ≠ (empty bytePrime .unlimited).order := by
    refine ⟨_, List.mem_cons_self, fun heq => ?_⟩
    exact absurd (Order.exact.inj heq) (by decide)
  obtain ⟨fault, hexec, hkind⟩ := Call.exec_of_foreign hdeclared hfields hforeign
  exact ⟨reachable_empty _ _, hdeclared, hforeign, fault, _, hexec, hkind, rfl, rfl, rfl, rfl⟩

/-- A disjunction whose second operand is over another field than its first. -/
def mixedDisjunction : Call :=
  .or .bool (.var (.exact .seven) 0) (.one (.exact bytePrime))

/-- It is refused without a trace. -/
theorem mixedDisjunction_refused :
    mixedDisjunction.Declared (table .seven) ∧ (∀ x ∈ mixedDisjunction.arguments, x.InField) ∧
      (∃ x ∈ mixedDisjunction.arguments, x.order ≠ (empty .seven .unlimited).order) ∧
      ∃ fault, (mixedDisjunction.action (table .seven)).exec (empty .seven .unlimited) =
        (.error fault, empty .seven .unlimited) ∧ fault.kind = .value := by
  have hdeclared : mixedDisjunction.Declared (table .seven) := ⟨rfl, rfl⟩
  have hfields : ∀ x ∈ mixedDisjunction.arguments, x.InField := by
    simp [mixedDisjunction, Call.arguments, Combination.InField, Combination.var, Combination.one,
      Combination.ofElement, Combination.make]
  have hforeign : ∃ x ∈ mixedDisjunction.arguments, x.order ≠ (empty .seven .unlimited).order := by
    refine ⟨_, List.mem_cons_of_mem _ List.mem_cons_self, fun heq => ?_⟩
    exact absurd (Order.exact.inj heq) (by decide)
  obtain ⟨fault, t, own, hexec, hkind, hunchanged, -⟩ :=
    call_refuses_foreign_argument hdeclared hfields hforeign
  obtain rfl := hunchanged fun a => by simp [mixedDisjunction]
  exact ⟨hdeclared, hfields, hforeign, fault, hexec, hkind⟩

end ConstraintSystem

end WordCircuit
