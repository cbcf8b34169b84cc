import WordCircuit.Proofs.Capability
import WordCircuit.Proofs.ConstraintSystem.Solutions
import WordCircuit.Proofs.Reading

namespace WordCircuit

namespace ConstraintSystem

/-- The combination is a handle of the system, and it has the value `z` at every
    assignment that satisfies the system so far and is `given`. -/
def Evaluates (given : Assignment → Prop) (s : ConstraintSystem) (x : Combination)
    (z : ZMod s.modulus.size) : Prop :=
  s.Declares x ∧ ∀ assignment, given assignment → assignment.Over s.modulus →
    s.isSatisfied assignment = .ok true → x.evaluate assignment = .ok (.ofClass s.modulus z)

/-- The residue class that a truth value counts as. -/
abbrev bit (s : ConstraintSystem) (b : Bool) : ZMod s.modulus.size :=
  if b then 1 else 0

/-- What a handle evaluates to stays when more is posed and when less is given. -/
theorem Evaluates.mono {given given' : Assignment → Prop} {s t : ConstraintSystem} {x : Combination}
    {u : Bool} (hx : Evaluates given s x (s.bit u)) (hprecedes : s.Precedes t)
    (hgiven : ∀ assignment, given' assignment → given assignment) :
    Evaluates given' t x (t.bit u) := by
  refine ⟨hprecedes.declares hx.1, fun assignment hgiven' hover hsat => ?_⟩
  rw [bit, hprecedes.modulus_eq] at *
  exact hx.2 assignment (hgiven assignment hgiven') hover (hprecedes.isSatisfied hsat)

/-- A handle stands for a truth value if it evaluates to one or zero accordingly. -/
abbrev bitReading (given : Assignment → Prop) : Reading ConstraintSystem Combination Bool where
  World := ConstraintSystem
  state s := s
  Grows := Extends
  grows_refl _ := .refl
  grows_trans := Extends.trans
  Reads s x b := Evaluates given s x (s.bit b)
  reads_of_grows h hx := hx.mono h.precedes fun _ => id

section Gates

variable {given : Assignment → Prop} {s : ConstraintSystem} {a b x : Combination}

theorem yields_of_exec {α : Type} {act : Action ConstraintSystem α} {t : ConstraintSystem} {r : α}
    {Q : ConstraintSystem → α → Prop} (hexec : act.exec s = (.ok r, t)) (hgrows : s.Extends t)
    (hr : Q t r) : (bitReading given).Yields s act Q :=
  ⟨r, t, hexec, hgrows, hr⟩

theorem Evaluates.combines {y z : ZMod s.modulus.size}
    {f : ZMod s.modulus.size → ZMod s.modulus.size → ZMod s.modulus.size}
    (ha : Evaluates given s a y) (hb : Evaluates given s b z)
    (hx : Combination.Combines s.modulus f a b x) : Evaluates given s x (f y z) :=
  ⟨ha.1.combines hb.1 hx, fun assignment hgiven hover hsat =>
    hx.evaluate_eq hover ha.1.over_field hb.1.over_field (ha.2 assignment hgiven hover hsat)
      (hb.2 assignment hgiven hover hsat)⟩

theorem evaluates_ofElement (z : ZMod s.modulus.size) :
    Evaluates given s (.ofElement (.ofClass s.modulus z)) z :=
  ⟨declares_ofElement (Element.over_ofClass _ _), fun _ _ _ _ => Combination.evaluate_ofElement _ _⟩

/-- The variable of a gate has the value of the product. -/
theorem Evaluates.gate {y z : ZMod s.modulus.size} (ha : Evaluates given s a y)
    (hb : Evaluates given s b z) :
    Evaluates given (s.gate a b) s.nextVar (y * z) := by
  refine ⟨s.declares_gate_nextVar a b, fun assignment hgiven hover hsat => ?_⟩
  have hbefore := (Extends.refl.gate ha.1 hb.1).precedes.isSatisfied hsat
  exact evaluate_nextVar_of_gate ha.1 hb.1 hover hsat (ha.2 assignment hgiven hover hbefore)
    (hb.2 assignment hgiven hover hbefore)

theorem one_eq_ofElement (s : ConstraintSystem) :
    Combination.one s.order = .ofElement (.ofClass s.modulus 1) := by
  rw [Combination.one, order, Element.one_exact]

theorem exec_one (s : ConstraintSystem) :
    one.exec s = (.ok (.ofElement (.ofClass s.modulus 1)), s) := by
  rw [← one_eq_ofElement]
  rfl

theorem exec_constant {table : Table} {ty : ValueType} {d canonical : Datum}
    (hrequire : table.require name ty .none "constant" = .ok ()) (hd : ty.validate d = .ok canonical) :
    (constant table ty d).exec s =
      (.ok (.ofElement (.ofNumber s.order (.int (canonical.integer?.getD 0)))), s) := by
  rw [constant, Action.exec_liftM_bind_of_ok hrequire, Action.exec_liftM_bind_of_ok hd,
    Action.exec_bind_of_ok (Action.exec_get s), Action.exec_pure]

theorem exec_and {table : Table} {ty : ValueType} (hrequire : table.require name ty .and "and" = .ok ())
    (ha : s.Declares a) (hb : s.Declares b) :
    (and table ty a b).exec s = (.ok s.nextVar, s.gate a b) := by
  rw [ConstraintSystem.and, Action.exec_liftM_bind_of_ok hrequire,
    Action.exec_bind_of_ok (Action.exec_get s), Action.exec_liftM_bind_of_ok ha.checkHandle,
    Action.exec_liftM_bind_of_ok hb.checkHandle]
  exact exec_multiply ha hb

theorem exec_compact_of_allows (hallows : s.maxTerms.allows x.terms.size = true) :
    (compact x).exec s = (.ok x, s) := by
  rw [compact, Action.exec_bind_of_ok (Action.exec_get s), if_pos hallows, Action.exec_pure]

/-- Compaction is a multiplication by one. -/
theorem exec_compact_of_not_allows (hx : s.Declares x)
    (hallows : s.maxTerms.allows x.terms.size = false) :
    (compact x).exec s = (.ok s.nextVar, s.gate x (.ofElement (.ofClass s.modulus 1))) := by
  rw [compact, Action.exec_bind_of_ok (Action.exec_get s), if_neg (by simp [hallows]),
    Action.exec_bind_of_ok s.exec_fresh, Action.exec_bind_of_ok (exec_one s.next),
    ← exec_multiply hx s.declares_one, Action.exec_bind_of_ok s.exec_fresh]
  rfl

theorem exists_exec_compact (hx : s.Declares x) :
    ∃ v t, (compact x).exec s = (.ok v, t) ∧ s.Extends t ∧ t.Declares v ∧
      t.numVars = s.numVars + (!s.maxTerms.allows x.terms.size).toNat := by
  cases hallows : s.maxTerms.allows x.terms.size with
  | true => exact ⟨x, s, exec_compact_of_allows hallows, .refl, hx, rfl⟩
  | false =>
    exact ⟨s.nextVar, _, exec_compact_of_not_allows hx hallows, Extends.refl.gate hx s.declares_one,
      s.declares_gate_nextVar x _, rfl⟩

/-- Replacing a combination by a variable does not change its value. -/
theorem yields_compact {u : Bool} (hx : (bitReading given).Reads s x u) :
    (bitReading given).Yields s (compact x)
      ((bitReading given).Reads · · u) := by
  cases hallows : s.maxTerms.allows x.terms.size with
  | true => exact yields_of_exec (exec_compact_of_allows hallows) .refl hx
  | false =>
    have hone : Evaluates given s _ 1 := evaluates_ofElement 1
    have hresult := hx.gate hone
    rw [mul_one] at hresult
    exact yields_of_exec (exec_compact_of_not_allows hx.1 hallows) (Extends.refl.gate hx.1 hone.1) hresult

/-- Over every field the table offers all connectives and assertions of truth values. -/
theorem includes_bool {wanted : Capability}
    (hwanted : wanted ∈ [.none, .and, .or, .xor, .not, .assertTrue, .assertEq]) :
    (Capability.and ||| .xor ||| .not ||| .assertTrue ||| .assertEq).closure.includes wanted =
      true := by
  simp only [List.mem_cons, List.not_mem_nil, or_false] at hwanted
  rcases hwanted with rfl | rfl | rfl | rfl | rfl | rfl | rfl <;> decide

theorem require_bool (p : Modulus) {wanted : Capability}
    (hwanted : wanted ∈ [.none, .and, .or, .xor, .not, .assertTrue, .assertEq]) (operation : String) :
    (table p).require name .bool wanted operation = .ok () :=
  Table.require_of_offered rfl (includes_bool hwanted) _ _

theorem supports_bool (p : Modulus) {wanted : Capability}
    (hwanted : wanted ∈ [.none, .and, .or, .xor, .not, .assertTrue, .assertEq]) :
    (table p).supports .bool wanted = true :=
  Table.supports_of_offered rfl (includes_bool hwanted)

theorem yields_constant (p : Modulus) (v : Bool) :
    (bitReading given).Yields s (constant (table p) .bool (.bool v))
      ((bitReading given).Reads · · v) := by
  refine .check (require_bool p (by simp) _) (.check rfl (.get (.pure ?_)))
  have hvalue : Element.ofNumber s.order (.int ((Datum.bool v).integer?.getD 0)) =
      .ofClass s.modulus (s.bit v) := by
    rw [order, Element.ofNumber_int, bit]
    cases v <;> simp [Datum.integer?]
  exact hvalue ▸ evaluates_ofElement (s.bit v)

theorem yields_and (p : Modulus) {u v : Bool} (ha : (bitReading given).Reads s a u)
    (hb : (bitReading given).Reads s b v) :
    (bitReading given).Yields s (and (table p) .bool a b)
      ((bitReading given).Reads · · (u && v)) := by
  have hresult := ha.gate hb
  rw [show s.bit u * s.bit v = s.bit (u && v) by cases u <;> cases v <;> simp [bit]] at hresult
  have hexec := exec_and (require_bool p (by simp) "and") ha.1 hb.1
  exact yields_of_exec hexec (Extends.refl.gate ha.1 hb.1) hresult

/-- A negation is the difference to one, and the system stays as it is. -/
theorem exists_exec_not {table : Table} {ty : ValueType}
    (hrequire : table.require name ty .not "not" = .ok ()) (ha : a.Over s.modulus) :
    ∃ z, (not table ty a).exec s = (.ok z, s) ∧
      Combination.Combines s.modulus (fun one value => one - value)
        (.ofElement (.ofClass s.modulus 1)) a z := by
  have hone := Combination.over_ofElement (Element.over_ofClass s.modulus 1)
  obtain ⟨z, hz, hcombines⟩ := Combination.exists_sub hone ha
  refine ⟨z, ?_, hcombines⟩
  unfold not
  rw [Action.exec_liftM_bind_of_ok hrequire, Action.exec_bind_of_ok (Action.exec_get s),
    Action.exec_liftM_bind_of_ok (checkHandle_of_over ha), Action.exec_bind_of_ok (exec_one s), hz]
  rfl

theorem yields_not (p : Modulus) {u : Bool} (ha : (bitReading given).Reads s a u) :
    (bitReading given).Yields s (not (table p) .bool a)
      ((bitReading given).Reads · · !u) := by
  have hone : Evaluates given s _ 1 := evaluates_ofElement 1
  obtain ⟨z, hexec, hcombines⟩ := exists_exec_not (require_bool p (by simp) _) ha.1.over_field
  have hresult := hone.combines ha hcombines
  rw [show 1 - s.bit u = s.bit !u by cases u <;> simp [bit]] at hresult
  exact yields_of_exec hexec .refl hresult

/-- Where one plus one is zero the sum of two bits is their exclusive or. -/
theorem bit_add_of_characteristicTwo (h : s.modulus.isCharacteristicTwo = true) (u v : Bool) :
    s.bit u + s.bit v = s.bit (u ^^ v) := by
  have hsize : s.modulus.size = 2 := by simpa [Modulus.isCharacteristicTwo] using h
  have htwo : (1 + 1 : ZMod s.modulus.size) = 0 := by
    rw [one_add_one_eq_two, ← Nat.cast_ofNat, ZMod.natCast_eq_zero_iff, hsize]
  cases u <;> cases v <;> simp [bit, htwo]

theorem bit_add_sub_two_mul (u v : Bool) :
    s.bit u + s.bit v - s.bit (u && v) * (2 : Int) = s.bit (u ^^ v) := by
  cases u <;> cases v <;> simp [bit]
  norm_num

theorem yields_xor (p : Modulus) {u v : Bool} (ha : (bitReading given).Reads s a u)
    (hb : (bitReading given).Reads s b v) :
    (bitReading given).Yields s (xor (table p) .bool a b)
      ((bitReading given).Reads · · (u ^^ v)) := by
  refine .check (require_bool p (by simp) _) (.get ?_)
  refine .check ha.1.checkHandle (.check hb.1.checkHandle ?_)
  by_cases hchar : s.modulus.isCharacteristicTwo
  · rw [if_pos hchar]
    obtain ⟨sum, hsum, hcombines⟩ := Combination.exists_add ha.1.over_field hb.1.over_field
    have hresult := ha.combines hb hcombines
    rw [bit_add_of_characteristicTwo hchar] at hresult
    exact .check hsum (yields_compact hresult)
  · rw [if_neg hchar]
    refine (yields_and p ha hb).bind fun t both hgrows hboth => ?_
    have ha := (bitReading given).reads_of_grows hgrows ha
    have hb := (bitReading given).reads_of_grows hgrows hb
    obtain ⟨sum, hsum, hcombinesSum⟩ := Combination.exists_add ha.1.over_field hb.1.over_field
    have hsumValue := ha.combines hb hcombinesSum
    obtain ⟨twice, htwice, hcombinesTwice⟩ := Combination.exists_scale_int hboth.1.over_field 2
    have htwiceValue := hboth.combines hboth hcombinesTwice
    obtain ⟨x, hx, hcombines⟩ := Combination.exists_sub hsumValue.1.over_field htwiceValue.1.over_field
    have hresult := hsumValue.combines htwiceValue hcombines
    rw [bit_add_sub_two_mul] at hresult
    exact .check hsum (.check htwice (.check hx (yields_compact hresult)))

theorem yields_or (p : Modulus) {u v : Bool} (ha : (bitReading given).Reads s a u)
    (hb : (bitReading given).Reads s b v) :
    (bitReading given).Yields s ((backend (table p)).or .bool a b)
      ((bitReading given).Reads · · (u || v)) := by
  refine .check (require_bool p (by simp) _) ?_
  refine (yields_not p ha).bind fun s₁ notA hgrows₁ hnotA => ?_
  have hb := (bitReading given).reads_of_grows hgrows₁ hb
  refine (yields_not p hb).bind fun s₂ notB hgrows₂ hnotB => ?_
  have hnotA := (bitReading given).reads_of_grows hgrows₂ hnotA
  refine (yields_and p hnotA hnotB).bind fun s₃ neither _ hneither => ?_
  have hresult := yields_not p hneither
  rwa [show (!(!u && !v)) = (u || v) by cases u <;> cases v <;> rfl] at hresult

/-- At every assignment the gates of a constraint system are the connectives of
    Boolean algebra, for each modulus and each bound on the number of terms. -/
theorem bitReading_respects (given : Assignment → Prop) (p : Modulus) :
    (bitReading given).Respects (backend (table p)) where
  constant _ := yields_constant p
  and := yields_and p
  or := yields_or p
  xor := yields_xor p
  not := yields_not p

end Gates

end ConstraintSystem

end WordCircuit
