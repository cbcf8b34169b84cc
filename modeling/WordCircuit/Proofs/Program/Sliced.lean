import WordCircuit.Proofs.BitSliced.Interpretation
import WordCircuit.Proofs.Program.Direct
import WordCircuit.Proofs.Program.Outcome

namespace WordCircuit

theorem asserted_congr {first second : Prop} [Decidable first] [Decidable second]
    (hiff : first ↔ second) : asserted first = asserted second := by
  unfold asserted
  simp only [hiff]

/-- Of two assertions both have to hold. -/
theorem asserted_bind_asserted (first second : Prop) [Decidable first] [Decidable second] :
    (asserted first >>= fun _ => asserted second) = asserted (first ∧ second) := by
  by_cases hfirst : first
  · simp only [asserted, hfirst, true_and]
    rfl
  · simp only [asserted, hfirst, false_and]
    rfl

namespace BitSliced

/-- Equality of words is asserted bit by bit, up to the first position at which they
    differ. -/
theorem follows_forM_assertEq {σ : Type} {Inner : ValueType → Type} (inner : Backend σ Inner)
    (R : Reading σ (Inner .bool) Bool)
    (hassert : ∀ {w : R.World} {x y : Inner .bool} {u v : Bool}, R.Reads w x u → R.Reads w y v →
      R.Follows w (inner.assertEq .bool x y) (fun _ _ _ => True) (asserted (u = v)))
    {count : Nat} {f g : Nat → Bool} :
    ∀ {w : R.World} {xs ys : List (Inner .bool)}, R.Spells w xs count f → R.Spells w ys count g →
      R.Follows w ((xs.zip ys).forM fun bits => inner.assertEq .bool bits.1 bits.2)
        (fun _ _ _ => True) (asserted (∀ i < count, f i = g i)) := by
  induction count generalizing f g with
  | zero =>
    intro w xs ys hxs _
    rw [List.eq_nil_of_length_eq_zero hxs.length_eq, asserted, if_pos (fun i hi => absurd hi i.not_lt_zero)]
    exact Frame.Yields.pure trivial
  | succ count ih =>
    intro w xs ys hxs hys
    obtain ⟨x, xs, rfl⟩ := List.exists_cons_of_length_eq_add_one hxs.length_eq
    obtain ⟨y, ys, rfl⟩ := List.exists_cons_of_length_eq_add_one hys.length_eq
    obtain ⟨hx, hxs⟩ := R.spells_cons_iff.mp hxs
    obtain ⟨hy, hys⟩ := R.spells_cons_iff.mp hys
    have hcondition : (∀ i < count + 1, f i = g i) ↔
        f 0 = g 0 ∧ ∀ i < count, f (i + 1) = g (i + 1) := Nat.forall_lt_succ_left
    rw [asserted_congr hcondition, ← asserted_bind_asserted]
    refine Frame.Follows.bind (hassert hx hy) fun w' _ _ hgrows _ => ?_
    exact ih (hxs.of_grows hgrows) (hys.of_grows hgrows)

/-- Words of bits over direct evaluation. -/
abbrev overDirect : Backend Journal (Handle Datum) :=
  backend (Direct.backend Direct.table) (table (Direct.backend Direct.table))

theorem wrap_direct : wrap (Direct.backend Direct.table) = .ok overDirect :=
  wrap_of_supports _ (Table.supports_of_offered rfl (by decide))

end BitSliced

namespace Host

/-- Slicing over direct evaluation on given input bits. -/
def sliced (bits : Nat → Bool) : Host Journal (BitSliced.Handle Datum) where
  backend := BitSliced.overDirect
  input k := return .bool (bits k)
  group
    | .bool, bits => return bits ⟨0, Nat.one_pos⟩
    | .u8, bits => return List.ofFn bits
    | .u32, bits => return List.ofFn bits

end Host

namespace Direct

variable {j : Journal} {ty : ValueType}

theorem follows_assertTrue (u : Value .bool) :
    values.Follows j ((backend table).assertTrue (ValueType.bool.datum u)) (fun _ _ _ => True)
      (asserted (u = 1)) := by
  obtain ⟨htrue, hfalse⟩ := Program.exec_direct_assertTrue u j
  by_cases hone : u = 1
  · rw [asserted, if_pos hone]
    exact ⟨(), j, htrue hone, rfl, trivial⟩
  · rw [asserted, if_neg hone]
    exact ⟨_, j, hfalse hone, rfl⟩

theorem follows_assertEq (u v : Value ty) :
    values.Follows j ((backend table).assertEq ty (ty.datum u) (ty.datum v)) (fun _ _ _ => True)
      (asserted (u = v)) := by
  obtain ⟨htrue, hfalse⟩ := Program.exec_direct_assertEq u v j
  by_cases heq : u = v
  · rw [asserted, if_pos heq]
    exact ⟨(), j, htrue heq, rfl, trivial⟩
  · rw [asserted, if_neg heq]
    obtain ⟨fault, hexec, hkind⟩ := hfalse heq
    exact ⟨fault, j, hexec, hkind⟩

/-- Direct evaluation does on its handles what programs do on bit vectors. -/
theorem values_serves (bits : Nat → Bool) : values.Serves (.direct bits) bits where
  models := values_models
  input j k := .pure (ValueType.datum_ofBool (bits k)).symm
  group {j ty handles bit} hbits := by
    obtain rfl : handles = fun i => ValueType.bool.datum (bit i) := funext hbits
    exact ⟨_, j, Program.exec_direct_group bit j, rfl, rfl⟩
  assertTrue hx := by
    rw [hx]
    exact follows_assertTrue _
  assertEq hx hy := by
    rw [hx, hy]
    exact follows_assertEq _ _

end Direct

namespace BitSliced

/-- Words of truth values of direct evaluation. -/
abbrev directBits : Interpretation Journal (Handle Datum) :=
  sliced Direct.values.truthReading

theorem follows_direct_assertEq {j : Journal} {x y : Datum} {u v : Bool}
    (hx : Direct.values.truthReading.Reads j x u) (hy : Direct.values.truthReading.Reads j y v) :
    Direct.values.Follows j ((Direct.backend Direct.table).assertEq .bool x y) (fun _ _ _ => True)
      (asserted (u = v)) := by
  have hiff : Value.ofBool u = Value.ofBool v ↔ u = v := by
    refine ⟨fun h => ?_, fun h => h ▸ rfl⟩
    have hbit := congrArg (BitVec.getLsbD · 0) h
    rwa [Value.getLsbD_ofBool, Value.getLsbD_ofBool] at hbit
  rw [hx, hy, ← asserted_congr hiff]
  exact Direct.follows_assertEq _ _

theorem follows_directBits_assertEq {j : Journal} {ty : ValueType} {x y : Handle Datum ty}
    {u v : Value ty} (hx : directBits.Reads j ty x u) (hy : directBits.Reads j ty y v) :
    directBits.Follows j (overDirect.assertEq ty x y) (fun _ _ _ => True) (asserted (u = v)) := by
  have hsupports : (Direct.backend Direct.table).table.supports .bool .assertEq = true := by decide
  have hrequire := require_assertEq hsupports ty "assert_eq"
  have hbits := follows_forM_assertEq (Direct.backend Direct.table) Direct.values.truthReading
    follows_direct_assertEq hx hy
  have hwidth := checkWidth_of_spells hx
  have hwidth' := checkWidth_of_spells hy
  cases ty with
  | bool =>
    have hx := Reading.spells_singleton_iff.mp hx
    have hy := Reading.spells_singleton_iff.mp hy
    have hfirst : u.getLsbD 0 = v.getLsbD 0 ↔ u = v := by
      rw [← Value.forall_getLsbD_iff]
      exact ⟨fun h i hi => by rwa [Nat.lt_one_iff.mp hi], fun h => h 0 Nat.one_pos⟩
    rw [← asserted_congr hfirst]
    exact .check hrequire (follows_direct_assertEq hx hy)
  | u8 =>
    rw [← asserted_congr Value.forall_getLsbD_iff]
    exact .check hrequire (.check hwidth (.check hwidth' hbits))
  | u32 =>
    rw [← asserted_congr Value.forall_getLsbD_iff]
    exact .check hrequire (.check hwidth (.check hwidth' hbits))

/-- Slicing over direct evaluation does on its handles what programs do on bit
    vectors. -/
theorem directBits_serves (bits : Nat → Bool) : directBits.Serves (.sliced bits) bits where
  models := sliced_models (Direct.values_models .bool).respects
  input j k := by
    have hbit : directBits.Reads j .bool (.bool (bits k)) (Value.ofBool (bits k)) := by
      refine Reading.spells_singleton_iff.mpr ?_
      rw [Value.getLsbD_ofBool]
      exact (ValueType.datum_ofBool (bits k)).symm
    exact .pure hbit
  group {j ty handles bit} hbits := by
    have hspells := spells_ofFn fun i => Reading.spells_singleton_iff.mp (hbits i)
    cases ty with
    | bool => exact .pure hspells
    | u8 => exact .pure hspells
    | u32 => exact .pure hspells
  assertTrue {j x u} hx := by
    have hsupports : (Direct.backend Direct.table).table.supports .bool .assertTrue = true := by decide
    have hrequire := require_assertTrue hsupports "assert"
    have hone : Value.ofBool (u.getLsbD 0) = 1 ↔ u = 1 := by
      rw [ValueType.eq_one_iff, ValueType.eq_one_iff, Value.getLsbD_ofBool]
    refine .check hrequire ?_
    rw [Reading.spells_singleton_iff.mp hx, ← asserted_congr hone]
    exact Direct.follows_assertTrue _
  assertEq hx hy := follows_directBits_assertEq hx hy

/-- A truth value of slicing is that of direct evaluation, and a word of slicing is as
    many bits as its type has, which decode to the integer of direct evaluation. -/
def Mirrors : (ty : ValueType) → Handle Datum ty → Datum → Prop
  | .bool, x, d => x = d
  | .u8, bits, d => bits.length = ValueType.u8.width ∧ ∃ n, Bits.decode bits = .ok n ∧ d = .int n
  | .u32, bits, d => bits.length = ValueType.u32.width ∧ ∃ n, Bits.decode bits = .ok n ∧ d = .int n

/-- Bits that spell a word decode to its number. -/
theorem decode_of_spellsWord {j : Journal} {xs : List Datum} {width : Nat} {v : BitVec width}
    (hxs : Direct.values.truthReading.SpellsWord j xs v) : Bits.decode xs = .ok v.toNat := by
  refine Bits.decode_eq_toNat hxs.length_eq fun i hi position => ?_
  have hbit : xs[i] = .bool (v.getLsbD i) := (hxs.reads i hi).trans (ValueType.datum_ofBool _)
  rw [hbit, Bits.value_bool]

theorem mirrors_of_reads {j : Journal} {ty : ValueType} {x : Handle Datum ty} {v : Value ty}
    (hx : directBits.Reads j ty x v) : Mirrors ty x (ty.datum v) := by
  cases ty with
  | bool =>
    have hbit := Reading.spells_singleton_iff.mp hx
    exact hbit.trans (ValueType.datum_ofBool _)
  | u8 => exact ⟨hx.length_eq, _, decode_of_spellsWord hx, rfl⟩
  | u32 => exact ⟨hx.length_eq, _, decode_of_spellsWord hx, rfl⟩

end BitSliced

namespace Program

/-- Slicing over direct evaluation goes through every program as direct evaluation does,
    step by step: both complete with handles that stand for the same values, or both
    stop first at the same step, at a fault of the same kind. -/
theorem sliced_run_mirrors_direct {Γ : List ValueType} (P : Program Γ) (bits : Nat → Bool)
    (j : Journal) :
    (∃ env data, (P.run (.sliced bits)).exec j = (.ok env, j) ∧
        (P.run (.direct bits)).exec j = (.ok data, j) ∧
        ∀ (ty : ValueType) (r : Ref Γ ty), BitSliced.Mirrors ty (env ty r) (data ty r)) ∨
      ∃ count kind, kind ∈ [Fault.Kind.type, .value, .assertion] ∧
        StopsAt (.sliced bits) j count kind P ∧ StopsAt (.direct bits) j count kind P := by
  have hsliced := follows_run (BitSliced.directBits_serves bits) P j
  have hdirect := follows_run (Direct.values_serves bits) P j
  cases houtcome : P.outcome bits with
  | ok values =>
    rw [houtcome] at hsliced hdirect
    obtain ⟨env, _, hexec, rfl, henv⟩ := hsliced
    obtain ⟨data, _, hexec', rfl, hdata⟩ := hdirect
    refine .inl ⟨env, data, hexec, hexec', fun ty r => ?_⟩
    rw [show data ty r = ty.datum (values ty r) from hdata ty r]
    exact BitSliced.mirrors_of_reads (henv ty r)
  | error kind =>
    obtain ⟨count, hstops⟩ := stopsEverywhere_of_outcome houtcome
    refine .inr ⟨count, kind, outcome_kind houtcome, ?_, ?_⟩
    · exact hstops (BitSliced.directBits_serves bits) j
    · exact hstops (Direct.values_serves bits) j

end Program

end WordCircuit
