import WordCircuit.Proofs.Direct.Words
import WordCircuit.Proofs.Program.Basic

namespace WordCircuit

theorem ValueType.same_datum {ty : ValueType} (u v : Value ty) :
    (ty.datum u).same (ty.datum v) = decide (u = v) := by
  have hword (m n : Nat) : ((m : Int) == n) = decide (m = n) := by
    rw [Bool.eq_iff_iff, beq_iff_eq, decide_eq_true_iff, Int.natCast_inj]
  cases ty with
  | bool =>
    have hsame (a b : Bool) : (Datum.bool a).same (.bool b) = decide (a = b) := by
      cases a <;> cases b <;> rfl
    rw [datum, datum, hsame, Bool.eq_iff_iff, decide_eq_true_iff, decide_eq_true_iff]
    rw [← BitVec.toNat_inj, toNat_of_bool, toNat_of_bool]
    cases u.getLsbD 0 <;> cases v.getLsbD 0 <;> simp
  | u8 => exact (hword u.toNat v.toNat).trans (by simp only [BitVec.toNat_inj])
  | u32 => exact (hword u.toNat v.toNat).trans (by simp only [BitVec.toNat_inj])

theorem ValueType.eq_one_iff (v : Value .bool) : v = 1 ↔ v.getLsbD 0 = true := by
  have hlt : v.toNat < 2 := v.isLt
  rw [← BitVec.toNat_inj, toNat_of_bool]
  cases v.getLsbD 0 <;> simp [ValueType.width]

theorem ValueType.datum_ofBool (b : Bool) : ValueType.bool.datum (Value.ofBool b) = .bool b :=
  congrArg Datum.bool (Value.getLsbD_ofBool b)

namespace Program

/-- The handles of direct evaluation for given values. -/
def data {Γ : List ValueType} (values : Env Value Γ) : Env (fun _ => Datum) Γ :=
  fun ty r => ty.datum (values ty r)

theorem data_push {Γ : List ValueType} {ty : ValueType} (values : Env Value Γ) (v : Value ty) :
    data (values.push v) = (data values).push (ty.datum v) := by
  funext other r
  cases r <;> rfl

theorem exec_direct_group {ty : ValueType} {bits : Nat → Bool} (bit : Fin ty.width → Value .bool)
    (j : Journal) :
    ((Host.direct bits).group ty fun i => ValueType.bool.datum (bit i)).exec j =
      (.ok (ty.datum (Bits.word fun i => (bit i).getLsbD 0)), j) := by
  have hdecode : Bits.decode (List.ofFn fun i => ValueType.bool.datum (bit i)) =
      .ok (Bits.word fun i => (bit i).getLsbD 0).toNat := by
    apply Bits.decode_eq_toNat List.length_ofFn
    intro i hi position
    rw [List.getElem_ofFn, Bits.getLsbD_word _ (by rwa [List.length_ofFn] at hi)]
    exact Bits.value_bool position _
  cases ty with
  | bool =>
    have hbit : (Bits.word fun i => (bit i).getLsbD 0).getLsbD 0 = (bit ⟨0, Nat.one_pos⟩).getLsbD 0 :=
      Bits.getLsbD_word _ Nat.one_pos
    exact congrArg (fun b => (Except.ok (Datum.bool b), j)) hbit.symm
  | u8 => exact (Action.exec_liftM_bind_of_ok hdecode j).trans rfl
  | u32 => exact (Action.exec_liftM_bind_of_ok hdecode j).trans rfl

theorem exec_direct_assertTrue (v : Value .bool) (j : Journal) :
    (v = 1 → ((Direct.backend Direct.table).assertTrue (ValueType.bool.datum v)).exec j = (.ok (), j)) ∧
      (¬v = 1 → ((Direct.backend Direct.table).assertTrue (ValueType.bool.datum v)).exec j =
        (.error .falseAssertion, j)) := by
  rw [ValueType.eq_one_iff]
  have htruth : (ValueType.bool.datum v).truth = v.getLsbD 0 := rfl
  simp only [Direct.backend, htruth]
  cases v.getLsbD 0 <;> simp

theorem exec_direct_assertEq {ty : ValueType} (u v : Value ty) (j : Journal) :
    (u = v → ((Direct.backend Direct.table).assertEq ty (ty.datum u) (ty.datum v)).exec j = (.ok (), j)) ∧
      (¬u = v → ∃ fault, ((Direct.backend Direct.table).assertEq ty (ty.datum u) (ty.datum v)).exec j =
        (.error fault, j) ∧ fault.kind = .assertion) := by
  simp only [Direct.backend, ValueType.same_datum]
  constructor
  · intro heq
    simp [heq]
  · intro hne
    exact ⟨.unequal (ty.datum u).display (ty.datum v).display, by simp [hne], rfl⟩

/-- Where all values exist, direct evaluation gives them if all assertions hold, and
    otherwise stops at an assertion. -/
theorem exec_direct {bits : Nat → Bool} {Γ : List ValueType} {P : Program Γ} {values : Env Value Γ}
    (hvalues : P.values bits = .ok values) (j : Journal) :
    (P.Holds bits → (P.run (.direct bits)).exec j = (.ok (data values), j)) ∧
      (¬P.Holds bits → ∃ fault, (P.run (.direct bits)).exec j = (.error fault, j) ∧
        fault.kind = .assertion) := by
  induction P with
  | start =>
    obtain rfl := Except.ok.inj hvalues
    refine ⟨fun _ => ?_, fun hnot => absurd trivial hnot⟩
    apply congrArg (fun env => (Except.ok env, j))
    funext ty r
    cases r
  | input P ih =>
    obtain ⟨before, hbefore, hpush⟩ := bind_eq_ok_iff.mp hvalues
    obtain rfl := Except.ok.inj hpush
    obtain ⟨hpass, hfail⟩ := ih hbefore
    refine ⟨fun hholds => ?_, fun hnot => ?_⟩
    · rw [run, Action.exec_bind_of_ok (hpass hholds), data_push]
      rw [ValueType.datum, Value.getLsbD_ofBool]
      rfl
    · obtain ⟨fault, hexec, hkind⟩ := hfail hnot
      exact ⟨fault, Action.exec_bind_of_error hexec, hkind⟩
  | group P ty refs ih =>
    obtain ⟨before, hbefore, hpush⟩ := bind_eq_ok_iff.mp hvalues
    obtain rfl := Except.ok.inj hpush
    obtain ⟨hpass, hfail⟩ := ih hbefore
    refine ⟨fun hholds => ?_, fun hnot => ?_⟩
    · rw [run, Action.exec_bind_of_ok (hpass hholds), data_push]
      exact Action.exec_bind_of_ok (exec_direct_group (fun i => before .bool (refs i)) j)
    · obtain ⟨fault, hexec, hkind⟩ := hfail hnot
      exact ⟨fault, Action.exec_bind_of_error hexec, hkind⟩
  | @operation Γ ty P op ih =>
    obtain ⟨before, hbefore, hpush⟩ := bind_eq_ok_iff.mp hvalues
    obtain ⟨v, hv, hpush⟩ := bind_eq_ok_iff.mp hpush
    obtain rfl := Except.ok.inj hpush
    obtain ⟨hpass, hfail⟩ := ih hbefore
    refine ⟨fun hholds => ?_, fun hnot => ?_⟩
    · have hreads : Direct.values.ReadsAll j (data before) before := fun _ _ => rfl
      have hfollows := hreads.follows (Direct.values_models ty) op
      rw [hv] at hfollows
      obtain ⟨d, j', hexec, rfl, rfl⟩ := hfollows
      rw [run, Action.exec_bind_of_ok (hpass hholds), data_push]
      exact Action.exec_bind_of_ok hexec
    · obtain ⟨fault, hexec, hkind⟩ := hfail hnot
      exact ⟨fault, Action.exec_bind_of_error hexec, hkind⟩
  | assertTrue P a ih =>
    obtain ⟨hpass, hfail⟩ := ih hvalues
    obtain ⟨htrue, hfalse⟩ := exec_direct_assertTrue (values .bool a) j
    refine ⟨?_, fun hnot => ?_⟩
    · rintro ⟨hholds, hasserted⟩
      rw [run, Action.exec_bind_of_ok (hpass hholds)]
      exact Action.exec_bind_of_ok (htrue (hasserted values hvalues))
    · by_cases hholds : P.Holds bits
      · have hne : ¬values .bool a = 1 := fun heq => hnot ⟨hholds, fun values' hvalues' => by
          rwa [← Except.ok.inj (hvalues.symm.trans hvalues')]⟩
        refine ⟨.falseAssertion, ?_, rfl⟩
        rw [run, Action.exec_bind_of_ok (hpass hholds)]
        exact Action.exec_bind_of_error (hfalse hne)
      · obtain ⟨fault, hexec, hkind⟩ := hfail hholds
        exact ⟨fault, Action.exec_bind_of_error hexec, hkind⟩
  | @assertEq Γ ty P a b ih =>
    obtain ⟨hpass, hfail⟩ := ih hvalues
    obtain ⟨heq, hunequal⟩ := exec_direct_assertEq (values ty a) (values ty b) j
    refine ⟨?_, fun hnot => ?_⟩
    · rintro ⟨hholds, hasserted⟩
      rw [run, Action.exec_bind_of_ok (hpass hholds)]
      exact Action.exec_bind_of_ok (heq (hasserted values hvalues))
    · by_cases hholds : P.Holds bits
      · have hne : ¬values ty a = values ty b := fun heq => hnot ⟨hholds, fun values' hvalues' => by
          rwa [← Except.ok.inj (hvalues.symm.trans hvalues')]⟩
        obtain ⟨fault, hexec, hkind⟩ := hunequal hne
        refine ⟨fault, ?_, hkind⟩
        rw [run, Action.exec_bind_of_ok (hpass hholds)]
        exact Action.exec_bind_of_error hexec
      · obtain ⟨fault, hexec, hkind⟩ := hfail hholds
        exact ⟨fault, Action.exec_bind_of_error hexec, hkind⟩

end Program

end WordCircuit
