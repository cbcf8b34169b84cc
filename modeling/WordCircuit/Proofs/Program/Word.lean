import WordCircuit.Proofs.Program.Circuit

namespace WordCircuit

theorem mapM_eq_ok_of_forall₂ {α β ε : Type} {f : α → Except ε β} {xs : List α} {ys : List β}
    (h : List.Forall₂ (fun x y => f x = .ok y) xs ys) : xs.mapM f = .ok ys := by
  induction h with
  | nil => rfl
  | cons hx _ ih =>
    rw [List.mapM_cons, hx, ih]
    rfl

namespace ConstraintSystem

/-- The handle is made of as many combinations as its type has bits, all of them over
    the field of the system and over variables that it has declared. -/
structure DeclaresWord (s : ConstraintSystem) {ty : ValueType}
    (a : BitSliced.Handle Combination ty) : Prop where
  length_eq : (BitSliced.bits ty a).length = ty.width
  over_field : ∀ x ∈ BitSliced.bits ty a, x.Over s.modulus
  nonneg : ∀ x ∈ BitSliced.bits ty a, ∀ i ∈ x.vars, 0 ≤ i
  dim_le : ∀ x ∈ BitSliced.bits ty a, x.dim ≤ s.numVars

theorem DeclaresWord.declares {s : ConstraintSystem} {ty : ValueType}
    {a : BitSliced.Handle Combination ty} (ha : s.DeclaresWord a) :
    ∀ x ∈ BitSliced.bits ty a, s.Declares x :=
  fun x hx => declares_of_dim_le (ha.over_field x hx) (ha.nonneg x hx) (ha.dim_le x hx)

theorem declaresWord_of_declares {s : ConstraintSystem} {ty : ValueType}
    {a : BitSliced.Handle Combination ty} (hlength : (BitSliced.bits ty a).length = ty.width)
    (h : ∀ x ∈ BitSliced.bits ty a, s.Declares x) : s.DeclaresWord a where
  length_eq := hlength
  over_field x hx := (h x hx).over_field
  nonneg x hx i hi := ((h x hx).vars i hi).1
  dim_le x hx := (h x hx).dim_le

end ConstraintSystem

open ConstraintSystem

/-- Each bit evaluates to zero or one. -/
def EvaluatesToBits (p : Modulus) (assignment : Assignment) {ty : ValueType}
    (a : BitSliced.Handle Combination ty) : Prop :=
  ∀ x ∈ BitSliced.bits ty a, ∃ b, x.evaluate assignment = .ok (.ofBool p b)

/-- The number that the bits decode to once they are evaluated. -/
def decodeAt (assignment : Assignment) {ty : ValueType} (a : BitSliced.Handle Combination ty) :
    Except Fault Nat := do
  let elements ← (BitSliced.bits ty a).mapM fun x => x.evaluate assignment
  Bits.decode (elements.map .element)

/-- Each bit evaluates to that of the value. -/
def EvaluatesTo (p : Modulus) (assignment : Assignment) {ty : ValueType}
    (a : BitSliced.Handle Combination ty) (v : Value ty) : Prop :=
  ∀ (i : Nat) (hi : i < (BitSliced.bits ty a).length),
    (BitSliced.bits ty a)[i].evaluate assignment = .ok (.ofBool p (v.getLsbD i))

section

variable {p : Modulus} {assignment : Assignment} {ty : ValueType}
  {a : BitSliced.Handle Combination ty} {v : Value ty}

theorem EvaluatesTo.evaluatesToBits (h : EvaluatesTo p assignment a v) :
    EvaluatesToBits p assignment a := by
  intro x hx
  obtain ⟨i, hi, rfl⟩ := List.getElem_of_mem hx
  exact ⟨v.getLsbD i, h i hi⟩

theorem EvaluatesToBits.exists_evaluatesTo (h : EvaluatesToBits p assignment a)
    (hlength : (BitSliced.bits ty a).length = ty.width) : ∃ v, EvaluatesTo p assignment a v := by
  have hbit (i : Fin ty.width) : ∃ b, (BitSliced.bits ty a)[i].evaluate assignment =
      .ok (.ofBool p b) :=
    h _ (List.getElem_mem _)
  choose bit hbit using hbit
  refine ⟨Bits.word bit, fun i hi => ?_⟩
  rw [Bits.getLsbD_word bit (hlength ▸ hi)]
  exact hbit ⟨i, hlength ▸ hi⟩

theorem EvaluatesTo.decodeAt_eq (h : EvaluatesTo p assignment a v)
    (hlength : (BitSliced.bits ty a).length = ty.width) : decodeAt assignment a = .ok v.toNat := by
  have helements : (BitSliced.bits ty a).mapM (fun x => x.evaluate assignment) =
      .ok ((List.range ty.width).map fun i => Element.ofBool p (v.getLsbD i)) := by
    apply mapM_eq_ok_of_forall₂
    refine List.forall₂_iff_get.mpr ⟨by simp [hlength], fun i hi _ => ?_⟩
    simpa using h i hi
  refine bind_eq_ok_iff.mpr ⟨_, helements, ?_⟩
  apply Bits.decode_eq_toNat
  · simp
  · intro i hi position
    simp only [List.getElem_map, List.getElem_range]
    exact Bits.value_ofBool position p _

/-- At one given assignment the bits of a word that is made of declared variables
    stand for what they evaluate to. -/
theorem EvaluatesTo.reads {s : ConstraintSystem} {a : BitSliced.Handle Combination ty} {v : Value ty}
    (h : EvaluatesTo s.modulus assignment a v) (ha : s.DeclaresWord a) :
    (BitSliced.sliced (bitReading (· = assignment))).Reads s ty a v := by
  refine ⟨ha.length_eq, fun i hi => ⟨ha.declares _ (List.getElem_mem hi), ?_⟩⟩
  rintro _ rfl _ _
  exact h i hi

theorem evaluatesTo_of_reads {t : ConstraintSystem} {a : BitSliced.Handle Combination ty}
    {v : Value ty} (h : (BitSliced.sliced (bitReading (· = assignment))).Reads t ty a v)
    (hover : assignment.Over t.modulus) (hsat : t.isSatisfied assignment = .ok true) :
    EvaluatesTo t.modulus assignment a v :=
  fun i hi => (h.reads i hi).2 assignment rfl hover hsat

/-- Inputs in a row make a word, which has the value of the bits that they carry. -/
theorem evaluatesTo_of_carries {bits : Nat → Bool} {inputs : List Combination} (start : Nat)
    (hcarries : Carries p bits inputs assignment) (hlength : start + ty.width ≤ inputs.length)
    (ha : BitSliced.bits ty a = (inputs.drop start).take ty.width)
    (hbits : ∀ i < ty.width, v.getLsbD i = bits (start + i)) : EvaluatesTo p assignment a v := by
  unfold EvaluatesTo
  rw [ha]
  intro i hi
  have hlt : i < ty.width := Nat.lt_of_lt_of_le hi (List.length_take_le _ _)
  rw [List.getElem_take, List.getElem_drop, hbits i hlt]
  exact hcarries (start + i) (by omega)

/-- Without any assignment all bits are vacuously read. -/
theorem ConstraintSystem.DeclaresWord.reads {s : ConstraintSystem} {a : BitSliced.Handle Combination ty}
    (ha : s.DeclaresWord a) (v : Value ty) :
    (BitSliced.sliced (bitReading fun _ => False)).Reads s ty a v :=
  ⟨ha.length_eq, fun _ hi => ⟨ha.declares _ (List.getElem_mem hi), fun _ h => h.elim⟩⟩

end

/-- Two operands. -/
def Env.pair {Handle : ValueType → Type} {ty : ValueType} (x y : Handle ty) : Env Handle [ty, ty] :=
  (Env.empty.push y).push x

theorem Interpretation.readsAll_pair {σ : Type} {Handle : ValueType → Type}
    {I : Interpretation σ Handle} {w : I.World} {ty : ValueType} {x y : Handle ty} {u v : Value ty}
    (hx : I.Reads w ty x u) (hy : I.Reads w ty y v) :
    I.ReadsAll w (Env.pair x y) (Env.pair u v) := by
  have hempty : I.ReadsAll w (Env.empty : Env Handle []) Env.empty := fun _ r => nomatch r
  exact (hempty.push hy).push hx

/-- An accepted operation on words over declared variables succeeds over every constraint
    system, and all it does there is to pose gates. -/
theorem exists_exec_word_operation (s : ConstraintSystem) {ty : ValueType}
    {a b : BitSliced.Handle Combination ty} (ha : s.DeclaresWord a) (hb : s.DeclaresWord b)
    (op : Operation [ty, ty] ty) (haccepted : op.Accepted) :
    ∃ out t, (op.run (Host.circuit s.modulus).backend (Env.pair a b)).exec s = (.ok out, t) ∧
      s.Extends t := by
  -- The vacuous reading is enough to succeed.
  have hmodels := BitSliced.sliced_models (bitReading_respects (fun _ => False) s.modulus) ty
  have hfollows := (Interpretation.readsAll_pair (ha.reads 0) (hb.reads 0)).follows hmodels op
  obtain ⟨v, hv⟩ := haccepted.exists_value (Env.pair (0 : Value ty) 0)
  rw [hv] at hfollows
  obtain ⟨out, t, hexec, hextends, -⟩ := hfollows
  exact ⟨out, t, hexec, hextends⟩

/-- An accepted operation on words over declared variables is sound over every
    constraint system: at each assignment that satisfies the system after it, and at
    which the operands evaluate to bits, so does the result, and the number of the
    result is what direct evaluation gives for the numbers of the operands. For the
    adder it is their sum modulo the power of two of the width. -/
theorem word_operation_evaluates_as_direct (s : ConstraintSystem) {ty : ValueType}
    (hword : ty.isWord = true) {a b : BitSliced.Handle Combination ty} (ha : s.DeclaresWord a)
    (hb : s.DeclaresWord b) (op : Operation [ty, ty] ty) (haccepted : op.Accepted) :
    ∃ out t, (op.run (Host.circuit s.modulus).backend (Env.pair a b)).exec s = (.ok out, t) ∧
      ∀ assignment : Assignment, assignment.Over s.modulus → t.isSatisfied assignment = .ok true →
        EvaluatesToBits s.modulus assignment a → EvaluatesToBits s.modulus assignment b →
          EvaluatesToBits s.modulus assignment out ∧ ∃ m n r,
            decodeAt assignment a = .ok m ∧ decodeAt assignment b = .ok n ∧
            decodeAt assignment out = .ok r ∧
            (∀ j, (op.run (Direct.backend Direct.table) (Env.pair (.int m) (.int n))).exec j =
              (.ok (.int r), j)) ∧
            (op = .binary .wrappingAdd .here (.there .here) → r = (m + n) % 2 ^ ty.width) := by
  obtain ⟨out, t, hexec, hextends⟩ := exists_exec_word_operation s ha hb op haccepted
  refine ⟨out, t, hexec, fun assignment hover hsat habits hbbits => ?_⟩
  obtain ⟨u, hu⟩ := habits.exists_evaluatesTo ha.length_eq
  obtain ⟨v, hv⟩ := hbbits.exists_evaluatesTo hb.length_eq
  have hmodels := BitSliced.sliced_models (bitReading_respects (· = assignment) s.modulus) ty
  have hfollows := (Interpretation.readsAll_pair (hu.reads ha) (hv.reads hb)).follows hmodels op
  obtain ⟨r, t', hr, rfl, -, hout⟩ := hfollows.of_exec hexec
  have hevaluates := evaluatesTo_of_reads hout (hextends.precedes.modulus_eq ▸ hover) hsat
  rw [hextends.precedes.modulus_eq] at hevaluates
  refine ⟨hevaluates.evaluatesToBits, u.toNat, v.toNat, r.toNat, hu.decodeAt_eq ha.length_eq,
    hv.decodeAt_eq hb.length_eq, hevaluates.decodeAt_eq hout.length_eq, fun j => ?_, ?_⟩
  · have hdirect : Direct.values.ReadsAll j (Env.pair (ty.datum u) (ty.datum v)) (Env.pair u v) :=
      Interpretation.readsAll_pair rfl rfl
    have hfollows := hdirect.follows (Direct.values_models ty) op
    rw [hr] at hfollows
    obtain ⟨d, j', hexec', rfl, rfl⟩ := hfollows
    simpa only [Direct.datum_of_isWord hword] using hexec'
  · rintro rfl
    have hsum : (Except.ok (u + v) : Except Fault.Kind (Value ty)) = .ok r := by
      rw [← hr, Operation.value, BinaryOp.value, if_pos hword]
      rfl
    rw [← Except.ok.inj hsum, BitVec.toNat_add]

/-- The byte that begins at one of sixteen inputs over the field with seven elements. -/
def inputByte (start : Nat) : BitSliced.Handle Combination .u8 :=
  (((empty .seven .unlimited).newInputs 16).drop start).take 8

theorem declaresWord_inputByte (start : Nat) (hstart : start ≤ 8) :
    ((empty .seven .unlimited).withInputs 16).DeclaresWord (inputByte start) := by
  apply declaresWord_of_declares
  · change (inputByte start).length = 8
    rw [inputByte, List.length_take, List.length_drop, length_newInputs]
    omega
  · intro x hx
    exact declares_newInputs _ 16 x (List.mem_of_mem_drop (List.mem_of_mem_take hx))

/-- Two declared bytes are added by gates, and one solution of these has 200 and 100 for the
    bytes. There the sum is 44. -/
theorem sum_of_declared_bytes :
    ∃ out t, ((Operation.binary .wrappingAdd .here (.there .here)).run (Host.circuit .seven).backend
        (Env.pair (inputByte 0) (inputByte 8))).exec ((empty .seven .unlimited).withInputs 16) =
          (.ok out, t) ∧
      ∃ assignment, t.Solves assignment ∧ decodeAt assignment (inputByte 0) = .ok 200 ∧
        decodeAt assignment (inputByte 8) = .ok 100 ∧ EvaluatesToBits .seven assignment out ∧
        decodeAt assignment out = .ok 44 := by
  let bits : Nat → Bool := Nat.testBit (200 + 2 ^ 8 * 100)
  have hlow := declaresWord_inputByte 0 (by decide)
  have hhigh := declaresWord_inputByte 8 (by decide)
  obtain ⟨out, t, hexec, hsound⟩ := word_operation_evaluates_as_direct
    ((empty .seven .unlimited).withInputs 16) rfl hlow hhigh
    (.binary .wrappingAdd .here (.there .here)) rfl
  obtain ⟨out', t', hexec', hextends⟩ := exists_exec_word_operation _ hlow hhigh
    (.binary .wrappingAdd .here (.there .here)) rfl
  obtain rfl : t' = t := (Prod.mk.inj (hexec'.symm.trans hexec)).2
  obtain ⟨assignment, hover, hsolves, hcarries⟩ := exists_solves_carries
    (wellFormed_empty .seven .unlimited) (solves_empty _ _) bits hextends.continues
  have hlength := (empty .seven .unlimited).length_newInputs 16
  have hfirst : EvaluatesTo .seven assignment (inputByte 0) (200 : Value .u8) :=
    evaluatesTo_of_carries 0 hcarries (by rw [hlength]; decide) rfl (by decide)
  have hsecond : EvaluatesTo .seven assignment (inputByte 8) (100 : Value .u8) :=
    evaluatesTo_of_carries 8 hcarries (by rw [hlength]; decide) rfl (by decide)
  have hm : decodeAt assignment (inputByte 0) = .ok 200 := hfirst.decodeAt_eq hlow.length_eq
  have hn : decodeAt assignment (inputByte 8) = .ok 100 := hsecond.decodeAt_eq hhigh.length_eq
  obtain ⟨hbits, m, n, r, hm', hn', hr, -, hsum⟩ := hsound assignment hover
    hsolves.satisfied hfirst.evaluatesToBits hsecond.evaluatesToBits
  obtain rfl := Except.ok.inj (hm.symm.trans hm')
  obtain rfl := Except.ok.inj (hn.symm.trans hn')
  obtain rfl : r = 44 := hsum rfl
  exact ⟨out, t', hexec, assignment, hsolves, hm, hn, hbits, hr⟩

/-- Known bits over the field with seven elements. -/
def knownBits (bits : List Bool) : List Combination :=
  bits.map fun b => .ofElement (.ofBool .seven b)

theorem declares_knownBits (bits : List Bool) (bound : TermBound) :
    ∀ x ∈ knownBits bits, (empty .seven bound).Declares x := by
  intro x hx
  obtain ⟨b, -, rfl⟩ := List.mem_map.mp hx
  exact declares_ofElement (Element.over_ofClass _ _)

def knownFive : BitSliced.Handle Combination .u8 :=
  knownBits [true, false, true, false, false, false, false, false]

end WordCircuit
