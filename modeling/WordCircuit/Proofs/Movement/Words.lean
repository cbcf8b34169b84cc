import Mathlib.Data.List.Rotate
import WordCircuit.Proofs.Direct.Calculation
import WordCircuit.Proofs.Movement.Laws
import WordCircuit.Proofs.Program.Word

namespace WordCircuit

namespace Direct

variable {ty : ValueType}

/-- The bits of the numbers of direct evaluation. -/
def bitView (ty : ValueType) : BitView Datum ty.width Bool where
  IsWord := InRange ty
  bit d i := BitSliced.bitOf (number d) i
  ext {x y} hx hy hbits := by
    obtain ⟨u, rfl⟩ := hx.exists_datum
    obtain ⟨v, rfl⟩ := hy.exists_datum
    refine congrArg ty.datum (BitVec.eq_of_getLsbD_eq fun i hi => ?_)
    have hbit := hbits i hi
    rwa [number_datum, number_datum, BitSliced.bitOf_natCast, BitSliced.bitOf_natCast] at hbit

theorem bit_datum (v : Value ty) (i : Nat) : (bitView ty).bit (ty.datum v) i = v.getLsbD i := by
  change BitSliced.bitOf (number (ty.datum v)) i = v.getLsbD i
  rw [number_datum, BitSliced.bitOf_natCast]
  rfl

theorem rotates (hword : ty.isWord = true) : (bitView ty).Rotates (backend table) where
  rotl {x k} j hx hk := by
    obtain ⟨v, rfl⟩ := hx.exists_datum
    refine ⟨_, exec_shift hword .rotl v (Nat.le_sub_one_of_lt hk) j, inRange_datum _, fun i hi => ?_⟩
    rw [bit_datum, bit_datum]
    change (v.rotateLeft k).getLsbD i = _
    rw [BitVec.getLsbD_rotateLeft_of_le hk]
    by_cases hlow : i < k
    · rw [Nat.mod_eq_of_lt (by omega)]
      simp [hlow, Nat.add_comm]
    · rw [show i + (ty.width - k) = i - k + ty.width by omega, Nat.add_mod_right,
        Nat.mod_eq_of_lt (by omega)]
      simp [hlow, hi]
  rotr {x k} j hx hk := by
    obtain ⟨v, rfl⟩ := hx.exists_datum
    refine ⟨_, exec_shift hword .rotr v (Nat.le_sub_one_of_lt hk) j, inRange_datum _, fun i hi => ?_⟩
    rw [bit_datum, bit_datum]
    change (v.rotateRight k).getLsbD i = _
    rw [BitVec.getLsbD_rotateRight_of_lt hk]
    by_cases hlow : i < ty.width - k
    · rw [Nat.mod_eq_of_lt (by omega)]
      simp [hlow, Nat.add_comm]
    · rw [show i + k = i - (ty.width - k) + ty.width by omega, Nat.add_mod_right,
        Nat.mod_eq_of_lt (by omega)]
      simp [hlow, hi]

theorem shifts (hword : ty.isWord = true) :
    (bitView ty).Shifts (backend table) (fun _ => True) false where
  shl {x k j} _ hx hk := by
    obtain ⟨v, rfl⟩ := hx.exists_datum
    refine ⟨_, j, exec_shift hword .shl v hk j, trivial, inRange_datum _, fun i hi => ?_⟩
    rw [bit_datum, bit_datum]
    change (v <<< k).getLsbD i = _
    rw [BitVec.getLsbD_shiftLeft]
    by_cases hlow : i < k <;> simp [hlow, hi]
  shr {x k j} _ hx hk := by
    obtain ⟨v, rfl⟩ := hx.exists_datum
    refine ⟨_, j, exec_shift hword .shr v hk j, trivial, inRange_datum _, fun i hi => ?_⟩
    rw [bit_datum, bit_datum]
    change (v >>> k).getLsbD i = _
    rw [BitVec.getLsbD_ushiftRight, Nat.add_comm]
    by_cases hhigh : i + k < ty.width
    · rw [if_pos hhigh]
    · rw [if_neg hhigh, BitVec.getLsbD_of_ge v _ (by omega)]

theorem fixesFalse (table : Table) : (backend table).FixesFalse (fun _ => True) (.bool false) :=
  fun s _ => ⟨s, rfl, trivial⟩

end Direct

namespace BitSliced

variable {σ β : Type} {Inner : ValueType → Type} {inner : Backend σ Inner} {ty : ValueType}

theorem bits_inj {x y : Handle β ty} (h : bits ty x = bits ty y) : x = y := by
  cases ty with
  | bool => exact (List.cons.inj h).1
  | u8 => exact h
  | u32 => exact h

/-- The bits of a word of slicing are its entries, whatever handles they are. -/
def bitView (β : Type) (ty : ValueType) : BitView (Handle β ty) ty.width (Option β) where
  IsWord x := (bits ty x).length = ty.width
  bit x i := (bits ty x)[i]?
  ext {x y} hx hy hbits := by
    refine bits_inj (List.ext_getElem? fun i => ?_)
    by_cases hi : i < ty.width
    · exact hbits i hi
    · rw [List.getElem?_eq_none (by omega), List.getElem?_eq_none (by omega)]

section Movement

variable {a : List β} {word : List (Inner .bool)} {k : Nat} (s : σ)

theorem exec_rotateUp (hlength : a.length = ty.width) (hk : k < ty.width) :
    (rotateUp ty (.int k) a : Action σ (List β)).exec s = (.ok (a.rotate (ty.width - k)), s) := by
  have hamount : ty.shiftAmount (.int k) true = .ok k :=
    ValueType.shiftAmount_natCast (Nat.le_sub_one_of_lt hk)
  rw [rotateUp, Action.exec_liftM_bind_of_ok hamount,
    Action.exec_liftM_bind_of_ok (checkWidth_of_length_eq hlength), Action.exec_pure,
    List.rotate_eq_drop_append_take (by omega)]

theorem exec_rotateDown (hlength : a.length = ty.width) (hk : k < ty.width) :
    (rotateDown ty (.int k) a : Action σ (List β)).exec s = (.ok (a.rotate k), s) := by
  have hamount : ty.shiftAmount (.int k) true = .ok k :=
    ValueType.shiftAmount_natCast (Nat.le_sub_one_of_lt hk)
  rw [rotateDown, Action.exec_liftM_bind_of_ok hamount,
    Action.exec_liftM_bind_of_ok (checkWidth_of_length_eq hlength), Action.exec_pure,
    List.rotate_eq_drop_append_take (by omega)]

variable {s} {t : σ} {zero : Inner .bool}

theorem exec_shiftUp (hzero : (inner.constant .bool (.bool false)).exec s = (.ok zero, t))
    (hlength : word.length = ty.width) (hk : k ≤ ty.width) :
    (shiftUp inner ty (.int k) word).exec s =
      (.ok (List.replicate k zero ++ word.take (ty.width - k)), t) := by
  rw [shiftUp, Action.exec_liftM_bind_of_ok (ValueType.shiftAmount_natCast hk),
    Action.exec_liftM_bind_of_ok (checkWidth_of_length_eq hlength), Action.exec_bind_of_ok hzero,
    Action.exec_pure]

theorem exec_shiftDown (hzero : (inner.constant .bool (.bool false)).exec s = (.ok zero, t))
    (hlength : word.length = ty.width) (hk : k ≤ ty.width) :
    (shiftDown inner ty (.int k) word).exec s =
      (.ok (word.drop k ++ List.replicate k zero), t) := by
  rw [shiftDown, Action.exec_liftM_bind_of_ok (ValueType.shiftAmount_natCast hk),
    Action.exec_liftM_bind_of_ok (checkWidth_of_length_eq hlength), Action.exec_bind_of_ok hzero,
    Action.exec_pure]

/-- What is done to the bits of a word is done to the word. -/
theorem exists_exec_move (hword : ty.isWord = true) (op : ShiftOp) {x : Handle (Inner .bool) ty}
    {amount : Datum} {out : List (Inner .bool)}
    (hout : (op.run (words inner (table inner)) ty (bits ty x) amount).exec s = (.ok out, t)) :
    ∃ y, (op.run (backend inner (table inner)) ty x amount).exec s = (.ok y, t) ∧ bits ty y = out := by
  cases ty with
  | bool => cases hword
  | u8 => cases op <;> exact ⟨out, hout, rfl⟩
  | u32 => cases op <;> exact ⟨out, hout, rfl⟩

end Movement

theorem rotated {x y : Handle β ty} {m : Nat} (hx : (bitView β ty).IsWord x)
    (hy : bits ty y = (bits ty x).rotate m) :
    (bitView β ty).IsWord y ∧
      ∀ i < ty.width, (bitView β ty).bit y i = (bitView β ty).bit x ((i + m) % ty.width) := by
  have hlength : (bits ty x).length = ty.width := hx
  refine ⟨?_, fun i hi => ?_⟩
  · change (bits ty y).length = ty.width
    rw [hy, List.length_rotate, hlength]
  · change (bits ty y)[i]? = (bits ty x)[(i + m) % ty.width]?
    rw [hy, List.getElem?_rotate (hlength.symm ▸ hi), hlength]

theorem rotates (inner : Backend σ Inner) (hword : ty.isWord = true) :
    (bitView (Inner .bool) ty).Rotates (backend inner (table inner)) where
  rotl {x k} s hx hk := by
    have hrequire : (table inner).require name ty .rotate "rotl" = .ok () :=
      require_word inner hword (by simp) _
    obtain ⟨y, hexec, hy⟩ := exists_exec_move hword .rotl
      ((Action.exec_liftM_bind_of_ok hrequire s).trans (exec_rotateUp s hx hk))
    exact ⟨y, hexec, rotated hx hy⟩
  rotr {x k} s hx hk := by
    have hrequire : (table inner).require name ty .rotate "rotr" = .ok () :=
      require_word inner hword (by simp) _
    obtain ⟨y, hexec, hy⟩ := exists_exec_move hword .rotr
      ((Action.exec_liftM_bind_of_ok hrequire s).trans (exec_rotateDown s hx hk))
    exact ⟨y, hexec, rotated hx hy⟩

theorem raised {x y : Handle β ty} {zero : β} {k : Nat} (hk : k ≤ ty.width)
    (hx : (bitView β ty).IsWord x)
    (hy : bits ty y = List.replicate k zero ++ (bits ty x).take (ty.width - k)) :
    (bitView β ty).IsWord y ∧ ∀ i < ty.width,
      (bitView β ty).bit y i = if i < k then some zero else (bitView β ty).bit x (i - k) := by
  have hlength : (bits ty x).length = ty.width := hx
  refine ⟨?_, fun i hi => ?_⟩
  · change (bits ty y).length = ty.width
    rw [hy, List.length_append, List.length_replicate, List.length_take]
    omega
  · change (bits ty y)[i]? = if i < k then some zero else (bits ty x)[i - k]?
    rw [hy]
    by_cases hlow : i < k
    · rw [if_pos hlow, List.getElem?_append_left (by rwa [List.length_replicate]),
        List.getElem?_replicate, if_pos hlow]
    · rw [if_neg hlow, List.getElem?_append_right (by rw [List.length_replicate]; omega),
        List.length_replicate, List.getElem?_take_of_lt (by omega)]

theorem lowered {x y : Handle β ty} {zero : β} {k : Nat} (hk : k ≤ ty.width)
    (hx : (bitView β ty).IsWord x) (hy : bits ty y = (bits ty x).drop k ++ List.replicate k zero) :
    (bitView β ty).IsWord y ∧ ∀ i < ty.width,
      (bitView β ty).bit y i = if i + k < ty.width then (bitView β ty).bit x (i + k) else some zero := by
  have hdrop : ((bits ty x).drop k).length = ty.width - k := by
    rw [List.length_drop, show (bits ty x).length = ty.width from hx]
  refine ⟨?_, fun i hi => ?_⟩
  · change (bits ty y).length = ty.width
    rw [hy, List.length_append, List.length_replicate, hdrop]
    omega
  · change (bits ty y)[i]? = if i + k < ty.width then (bits ty x)[i + k]? else some zero
    rw [hy]
    by_cases hhigh : i + k < ty.width
    · rw [if_pos hhigh, List.getElem?_append_left (by omega), List.getElem?_drop, Nat.add_comm]
    · rw [if_neg hhigh, List.getElem?_append_right (by omega), List.getElem?_replicate,
        if_pos (by omega)]

theorem shifts {S : σ → Prop} {zero : Inner .bool} (hfixes : inner.FixesFalse S zero)
    (hword : ty.isWord = true) :
    (bitView (Inner .bool) ty).Shifts (backend inner (table inner)) S (some zero) where
  shl {x k s} hs hx hk := by
    have hrequire : (table inner).require name ty .shift "shl" = .ok () :=
      require_word inner hword (by simp) _
    obtain ⟨t, hzero, ht⟩ := hfixes s hs
    obtain ⟨y, hexec, hy⟩ := exists_exec_move hword .shl
      ((Action.exec_liftM_bind_of_ok hrequire s).trans (exec_shiftUp hzero hx hk))
    exact ⟨y, t, hexec, ht, raised hk hx hy⟩
  shr {x k s} hs hx hk := by
    have hrequire : (table inner).require name ty .shift "shr" = .ok () :=
      require_word inner hword (by simp) _
    obtain ⟨t, hzero, ht⟩ := hfixes s hs
    obtain ⟨y, hexec, hy⟩ := exists_exec_move hword .shr
      ((Action.exec_liftM_bind_of_ok hrequire s).trans (exec_shiftDown hzero hx hk))
    exact ⟨y, t, hexec, ht, lowered hk hx hy⟩

end BitSliced

/-- While the field of a constraint system stays the same, so does the constant false. -/
theorem ConstraintSystem.fixesFalse (p : Modulus) :
    (backend (table p)).FixesFalse (fun s => s.modulus = p) (.ofElement (.ofNumber (.exact p) (.int 0))) := by
  rintro s rfl
  have hvalidate : ValueType.bool.validate (.bool false) = .ok (.bool false) := rfl
  exact ⟨s, exec_constant (require_bool s.modulus (by simp) _) hvalidate, rfl⟩

/-- Rotations of words form a cyclic group and shifts add up, on the numbers of direct
    evaluation as on words that are tuples of the handles of any backend. Rotations of tuples
    are the same whatever the operations of that backend are. Shifts of tuples give the same
    handles again as long as the constant false of that backend is always the same, as it is in
    direct evaluation and in a constraint system. -/
theorem rotations_cyclic_and_shifts_additive {ty : ValueType} (hword : ty.isWord = true) :
    ((Direct.bitView ty).Cyclic (Direct.backend Direct.table) ∧
      (Direct.bitView ty).Additive (Direct.backend Direct.table) (fun _ => True) false) ∧
    (∀ {σ : Type} {Inner : ValueType → Type} (inner : Backend σ Inner),
      (BitSliced.bitView (Inner .bool) ty).Cyclic (BitSliced.backend inner (BitSliced.table inner)) ∧
      (∀ (other : Backend σ Inner) (table : Table),
        (BitSliced.backend other table).rotl = (BitSliced.backend inner table).rotl ∧
          (BitSliced.backend other table).rotr = (BitSliced.backend inner table).rotr) ∧
      ∀ {S : σ → Prop} {zero : Inner .bool}, inner.FixesFalse S zero →
        (BitSliced.bitView (Inner .bool) ty).Additive (BitSliced.backend inner (BitSliced.table inner))
          S (some zero)) ∧
    (∀ table : Table, (Direct.backend table).FixesFalse (fun _ => True) (.bool false)) ∧
    ∀ p : Modulus, (ConstraintSystem.backend (ConstraintSystem.table p)).FixesFalse
      (fun s => s.modulus = p) (.ofElement (.ofNumber (.exact p) (.int 0))) := by
  refine ⟨⟨(Direct.rotates hword).cyclic, (Direct.shifts hword).additive⟩, ?_, Direct.fixesFalse,
    ConstraintSystem.fixesFalse⟩
  intro σ Inner inner
  refine ⟨(BitSliced.rotates inner hword).cyclic, fun other table => ⟨rfl, rfl⟩, fun hfixes => ?_⟩
  exact (BitSliced.shifts hfixes hword).additive

/-- Five as known bits over the field with seven elements: rotating it by six places and then by
    seven is rotating it by five, and shifting it that far leaves nothing of it. -/
theorem knownFive_moves :
    ValueType.u8.isWord = true ∧
      (∃ y, ((Host.circuit .seven).backend.rotl .u8 knownFive (.int (6 : Nat)) >>= fun z =>
          (Host.circuit .seven).backend.rotl .u8 z (.int (7 : Nat))).exec (.empty .seven .unlimited) =
            (.ok y, .empty .seven .unlimited) ∧
        ((Host.circuit .seven).backend.rotl .u8 knownFive (.int (5 : Nat))).exec
          (.empty .seven .unlimited) = (.ok y, .empty .seven .unlimited)) ∧
      ∃ y t t', ((Host.circuit .seven).backend.shl .u8 knownFive (.int (6 : Nat)) >>= fun z =>
          (Host.circuit .seven).backend.shl .u8 z (.int (7 : Nat))).exec (.empty .seven .unlimited) =
            (.ok y, t) ∧
        ((Host.circuit .seven).backend.shl .u8 knownFive (.int (8 : Nat))).exec
          (.empty .seven .unlimited) = (.ok y, t') := by
  have hfive : (BitSliced.bitView Combination .u8).IsWord knownFive := rfl
  have hword : ValueType.u8.isWord = true := rfl
  obtain ⟨-, hsliced, -, hfixes⟩ := rotations_cyclic_and_shifts_additive hword
  obtain ⟨hcyclic, -, hadditive⟩ := hsliced (Host.arithmetic .seven).backend
  have hsix : 6 < ValueType.u8.width := by decide
  have hseven : 7 < ValueType.u8.width := by decide
  refine ⟨hword, hcyclic.rotl_rotl _ hfive hsix hseven, ?_⟩
  exact (hadditive (hfixes .seven)).shl_shl rfl hfive hsix.le hseven.le

end WordCircuit
