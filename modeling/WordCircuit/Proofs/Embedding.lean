import WordCircuit.Proofs.Combination.Canonical
import WordCircuit.Proofs.Program.Sliced

namespace WordCircuit

/-- What passes as a constant has been validated to the handle of its value. -/
theorem ValueType.validate_of_value {ty : ValueType} {d : Datum} {v : BitVec ty.width}
    (h : ty.value d = .ok v) : ty.validate d = .ok (ty.datum v) := by
  obtain ⟨u, hvalidate, hvalue⟩ | ⟨fault, -, hvalue⟩ := ty.value_cases d
  · obtain rfl := Except.ok.inj (hvalue.symm.trans h)
    exact hvalidate
  · cases hvalue.symm.trans h

theorem Datum.sameAll_map_iff {ι : Type} {items : List ι} {f g : ι → Datum}
    (hunshared : ∀ i ∈ items, sameOccurrence (f i) (g i) = false) :
    sameAll (items.map f) (items.map g) = true ↔ ∀ i ∈ items, (f i).same (g i) = true := by
  induction items with
  | nil => simp [sameAll]
  | cons item items ih =>
    rw [List.forall_mem_cons] at hunshared
    rw [List.map_cons, List.map_cons, sameAll, hunshared.1, Bool.false_or, Bool.and_eq_true,
      ih hunshared.2, List.forall_mem_cons]

/-- Actions that leave the state alone give what each of them gives. -/
theorem Action.exec_mapM {σ ι α : Type} {f : ι → Action σ α} {g : ι → α} {s : σ} {items : List ι}
    (hf : ∀ i ∈ items, (f i).exec s = (.ok (g i), s)) :
    (items.mapM f).exec s = (.ok (items.map g), s) := by
  induction items with
  | nil => rfl
  | cons item items ih =>
    rw [List.forall_mem_cons] at hf
    rw [List.mapM_cons, Action.exec_bind_of_ok hf.1, Action.exec_bind_of_ok (ih hf.2)]
    rfl

section Modulus

variable {p : Modulus} {m n : Nat}

/-- Numbers below the modulus have residues of their own. -/
theorem natCast_inj_of_lt (hm : m < p.size) (hn : n < p.size) :
    (m : ZMod p.size) = n ↔ m = n := by
  rw [ZMod.natCast_eq_natCast_iff', Nat.mod_eq_of_lt hm, Nat.mod_eq_of_lt hn]

theorem same_ofNumber_iff (hm : m < p.size) (hn : n < p.size) :
    (Element.ofNumber (.exact p) (.int m)).same (.ofNumber (.exact p) (.int n)) = true ↔ m = n := by
  rw [Element.ofNumber_int, Element.ofNumber_int, Element.same_ofClass, Int.cast_natCast,
    Int.cast_natCast, natCast_inj_of_lt hm hn]

end Modulus

namespace Backend

variable {σ : Type} {Handle : ValueType → Type}

/-- The constants of a type have the handles that `embed` gives to their values, and leave the state
    alone. As values these handles are equal exactly if what they are constants of is, and no two of
    them are one occurrence. -/
structure EmbedsBy (b : Backend σ Handle) (Good : σ → Prop) (ty : ValueType)
    (view : Handle ty → Datum) (embed : BitVec ty.width → Handle ty) : Prop where
  exec_constant : ∀ {d : Datum} {v : BitVec ty.width} {s : σ}, ty.value d = .ok v → Good s →
    (b.constant ty d).exec s = (.ok (embed v), s)
  same_iff : ∀ u v, (view (embed u)).same (view (embed v)) = true ↔ u = v
  unshared : ∀ u v, (view (embed u)).sameOccurrence (view (embed v)) = false

/-- Whatever the state is, constants whose validated values are equal get equal handles, and others
    get unequal ones. -/
def EmbedsConstants (b : Backend σ Handle) (Good : σ → Prop) (ty : ValueType)
    (view : Handle ty → Datum) : Prop :=
  ∀ {d d' canonical canonical' : Datum}, ty.validate d = .ok canonical →
    ty.validate d' = .ok canonical' → ∃ x x',
      (∀ s, Good s → (b.constant ty d).exec s = (.ok x, s)) ∧
      (∀ s, Good s → (b.constant ty d').exec s = (.ok x', s)) ∧
      ((view x).same (view x') = true ↔ canonical = canonical')

theorem EmbedsBy.embedsConstants {b : Backend σ Handle} {Good : σ → Prop} {ty : ValueType}
    {view : Handle ty → Datum} {embed : BitVec ty.width → Handle ty}
    (h : b.EmbedsBy Good ty view embed) : b.EmbedsConstants Good ty view := by
  have hvalue {d canonical : Datum} (hd : ty.validate d = .ok canonical) :
      ∃ v, canonical = ty.datum v ∧ ty.value d = .ok v := by
    obtain ⟨v, hvalidate, hvalue⟩ | ⟨fault, hvalidate, -⟩ := ty.value_cases d
    · exact ⟨v, Except.ok.inj (hd.symm.trans hvalidate), hvalue⟩
    · cases hd.symm.trans hvalidate
  intro d d' canonical canonical' hd hd'
  obtain ⟨v, rfl, hv⟩ := hvalue hd
  obtain ⟨v', rfl, hv'⟩ := hvalue hd'
  refine ⟨embed v, embed v', fun s => h.exec_constant hv, fun s => h.exec_constant hv', ?_⟩
  rw [h.same_iff, ValueType.datum_inj]

end Backend

namespace Direct

theorem embedsBy (ty : ValueType) :
    (backend table).EmbedsBy (fun _ => True) ty id ty.datum where
  exec_constant hv _ := by
    change (liftM (ty.validate _) : Action Journal Datum).exec _ = _
    rw [ValueType.validate_of_value hv, Action.exec_liftM]
  same_iff u v := by
    rw [id, id, ValueType.same_datum, decide_eq_true_iff]
  unshared u v := by
    cases ty <;> rfl

end Direct

namespace ConstraintSystem

variable {p : Modulus} {ty : ValueType}

theorem represents_u8_iff (p : Modulus) : (table p).represents .u8 = true ↔ 256 ≤ p.size := by
  have hwidth : ValueType.u8.width ≤ p.capacityBits ↔ 256 ≤ p.size := Nat.le_log2 p.size_pos.ne'
  rw [← hwidth]
  by_cases hfits : ValueType.u8.width ≤ p.capacityBits <;>
    simp [Table.represents, Table.offered?, table, hfits]

/-- A represented type has no more values than there are residues. -/
theorem two_pow_width_le (hty : (table p).represents ty = true) : 2 ^ ty.width ≤ p.size := by
  cases ty with
  | bool => exact p.two_le
  | u8 => exact (represents_u8_iff p).mp hty
  | u32 => cases hty

/-- A constant is the combination of the residue of its value. -/
theorem embedsBy (hty : (table p).represents ty = true) :
    (backend (table p)).EmbedsBy (fun s => s.modulus = p) ty .combination
      (fun v => .ofElement (.ofClass p v.toNat)) where
  exec_constant {d v s} hv hs := by
    subst hs
    have hrequire : (table s.modulus).require name ty .none "constant" = .ok () :=
      Table.require_of_represents hty (Table.supports_none _ _) _ _
    refine (exec_constant hrequire (ValueType.validate_of_value hv)).trans ?_
    rw [ValueType.integer?_datum, Option.getD_some, order, Element.ofNumber_int, Int.cast_natCast]
  same_iff u v := by
    have hover (w : BitVec ty.width) : (Combination.ofElement (.ofClass p w.toNat)).Over p :=
      Combination.over_ofElement (Element.over_ofClass p _)
    have hlt (w : BitVec ty.width) : w.toNat < p.size := w.isLt.trans_le (two_pow_width_le hty)
    have hsame := Combination.same_iff_denote_eq (hover u) (hover v)
    simp only [Combination.denote_ofElement, Element.residue_ofClass, forall_const] at hsame
    rw [natCast_inj_of_lt (hlt u) (hlt v), BitVec.toNat_inj] at hsame
    exact hsame
  unshared u v := rfl

end ConstraintSystem

namespace BitSliced

variable {σ : Type} {Inner : ValueType → Type} {inner : Backend σ Inner}

/-- A truth value as the inner backend has it, and a word as the list of its bits. -/
def view {β : Type} (view : β → Datum) : (ty : ValueType) → Handle β ty → Datum
  | .bool, x => view x
  | .u8, bits => .list (bits.map view)
  | .u32, bits => .list (bits.map view)

/-- The handle of a value, if truth values have the handles that `embed` gives them. -/
def embedded {β : Type} (embed : BitVec 1 → β) : (ty : ValueType) → BitVec ty.width → Handle β ty
  | .bool, v => embed v
  | .u8, v => (List.range 8).map fun i => embed (.ofBool (v.getLsbD i))
  | .u32, v => (List.range 32).map fun i => embed (.ofBool (v.getLsbD i))

section Words

variable {Good : σ → Prop} {inside : Inner .bool → Datum} {embed : BitVec 1 → Inner .bool}
  (h : inner.EmbedsBy Good .bool inside embed) {ty : ValueType}

include h

theorem exec_constantBits {d : Datum} {v : BitVec ty.width} {s : σ} (hv : ty.value d = .ok v)
    (hs : Good s) :
    ((words inner (table inner)).constant ty d).exec s =
      (.ok ((List.range ty.width).map fun i => embed (.ofBool (v.getLsbD i))), s) := by
  change ((liftM _ : Action σ Unit) >>= fun _ => constantBits inner ty d).exec s = _
  rw [Action.exec_liftM_bind_of_ok (require_connective inner ty (by simp) _), constantBits,
    Action.exec_liftM_bind_of_ok (ValueType.validate_of_value hv)]
  refine Action.exec_mapM fun i _ => ?_
  rw [ValueType.integer?_datum, Option.getD_some, bitOf_natCast]
  have hbit : ValueType.bool.value (.bool (v.toNat.testBit i)) = .ok (.ofBool (v.getLsbD i)) := by
    change ValueType.bool.value (.bool (v.getLsbD i)) = _
    cases v.getLsbD i <;> rfl
  exact h.exec_constant hbit hs

theorem same_words_iff (u v : BitVec ty.width) :
    Datum.sameAll ((List.range ty.width).map fun i => inside (embed (.ofBool (u.getLsbD i))))
      ((List.range ty.width).map fun i => inside (embed (.ofBool (v.getLsbD i)))) = true ↔ u = v := by
  have hofBool (a b : Bool) : BitVec.ofBool a = BitVec.ofBool b ↔ a = b := by
    cases a <;> cases b <;> decide
  refine (Datum.sameAll_map_iff fun i _ => h.unshared _ _).trans ?_
  rw [← Value.forall_getLsbD_iff]
  exact forall_congr' fun i => imp_congr List.mem_range ((h.same_iff _ _).trans (hofBool _ _))

/-- Words are embedded bit by bit. -/
theorem embedsBy (ty : ValueType) :
    (backend inner (table inner)).EmbedsBy Good ty (view inside ty) (embedded embed ty) where
  exec_constant {d v s} hv hs := by
    cases ty with
    | bool =>
      have hrequire := require_connective inner .bool (show Capability.none ∈ _ by simp) "constant"
      change ((liftM _ : Action σ Unit) >>= fun _ => _).exec s = _
      rw [Action.exec_liftM_bind_of_ok hrequire,
        Action.exec_liftM_bind_of_ok (ValueType.validate_of_value hv)]
      exact h.exec_constant (ValueType.value_datum .bool v) hs
    | u8 => exact exec_constantBits h hv hs
    | u32 => exact exec_constantBits h hv hs
  same_iff u v := by
    cases ty with
    | bool => exact h.same_iff u v
    | u8 =>
      simp only [view, embedded, List.map_map]
      exact same_words_iff h u v
    | u32 =>
      simp only [view, embedded, List.map_map]
      exact same_words_iff h u v
  unshared u v := by
    cases ty with
    | bool => exact h.unshared u v
    | u8 => rfl
    | u32 => rfl

end Words

end BitSliced

/-- The constraint system represents bytes exactly if the modulus is large enough for all of them to
    have residues of their own. All numbers of as many bits as the capacity have residues of their
    own, and the modulus itself has one bit more. Every backend embeds the constants of the types
    that it represents: direct evaluation, the constraint system and slicing over either. -/
theorem constants_embed_where_represented (p : Modulus) :
    ((ConstraintSystem.table p).represents .u8 = true ↔ 256 ≤ p.size) ∧
    ((ConstraintSystem.table p).represents .u8 = true ↔ ∀ m n : Nat, m < 256 → n < 256 →
      (Element.ofNumber (.exact p) (.int m)).same (.ofNumber (.exact p) (.int n)) = true → m = n) ∧
    (∀ m n : Nat, m < 2 ^ p.capacityBits → n < 2 ^ p.capacityBits →
      (Element.ofNumber (.exact p) (.int m)).same (.ofNumber (.exact p) (.int n)) = true → m = n) ∧
    p.size < 2 ^ (p.capacityBits + 1) ∧
    (∀ ty, Direct.table.represents ty = true →
      (Direct.backend Direct.table).EmbedsConstants (fun _ => True) ty id) ∧
    (∀ ty, (ConstraintSystem.table p).represents ty = true →
      (ConstraintSystem.backend (ConstraintSystem.table p)).EmbedsConstants (fun s => s.modulus = p) ty
        .combination) ∧
    (∃ sliced, BitSliced.wrap (Direct.backend Direct.table) = .ok sliced ∧
      ∀ ty, sliced.table.represents ty = true →
        sliced.EmbedsConstants (fun _ => True) ty (BitSliced.view id ty)) ∧
    ∃ sliced, BitSliced.wrap (ConstraintSystem.backend (ConstraintSystem.table p)) = .ok sliced ∧
      ∀ ty, sliced.table.represents ty = true →
        sliced.EmbedsConstants (fun s => s.modulus = p) ty (BitSliced.view .combination ty) := by
  have hembeds {bound : Nat} (hbound : bound ≤ p.size) (m n : Nat) (hm : m < bound) (hn : n < bound)
      (hsame : (Element.ofNumber (.exact p) (.int m)).same (.ofNumber (.exact p) (.int n)) = true) :
      m = n :=
    (same_ofNumber_iff (hm.trans_le hbound) (hn.trans_le hbound)).mp hsame
  refine ⟨ConstraintSystem.represents_u8_iff p, ⟨fun hbyte => ?bytes, fun hbytes => ?large⟩, ?capacity,
    Nat.lt_log2_self, fun ty _ => (Direct.embedsBy ty).embedsConstants,
    fun ty hty => (ConstraintSystem.embedsBy hty).embedsConstants,
    ⟨_, BitSliced.wrap_direct, fun ty _ => ?slicedDirect⟩,
    ⟨_, Host.wrap_arithmetic p, fun ty _ => ?slicedArithmetic⟩⟩
  case bytes => exact hembeds ((ConstraintSystem.represents_u8_iff p).mp hbyte)
  case large =>
    rw [ConstraintSystem.represents_u8_iff]
    by_contra hsmall
    -- In a smaller ring the modulus is a byte that has the residue of zero.
    have hsame : (Element.ofNumber (.exact p) (.int p.size)).same
        (.ofNumber (.exact p) (.int (0 : Nat))) = true := by
      rw [Element.ofNumber_int, Element.ofNumber_int, Element.same_ofClass, Int.cast_natCast,
        Int.cast_natCast, ZMod.natCast_self, Nat.cast_zero]
    exact p.size_pos.ne' (hbytes p.size 0 (by omega) (by omega) hsame)
  case capacity => exact hembeds (Nat.log2_self_le p.size_pos.ne')
  case slicedDirect => exact (BitSliced.embedsBy (Direct.embedsBy .bool) ty).embedsConstants
  case slicedArithmetic =>
    exact (BitSliced.embedsBy (@ConstraintSystem.embedsBy p .bool rfl) ty).embedsConstants

end WordCircuit
