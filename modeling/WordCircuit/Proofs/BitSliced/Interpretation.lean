import WordCircuit.Proofs.BitSliced.Words
import WordCircuit.Proofs.Bits
import WordCircuit.Proofs.Capability

namespace WordCircuit.BitSliced

/-- The handles of the bits of a value, lowest first. -/
def bits {β : Type} : (ty : ValueType) → Handle β ty → List β
  | .bool, x => [x]
  | .u8, x => x
  | .u32, x => x

/-- A handle stands for the bit vector that its bits spell. -/
abbrev sliced {σ β : Type} (R : Reading σ β Bool) : Interpretation σ (Handle β) where
  toFrame := R.toFrame
  Reads w ty x v := R.SpellsWord w (bits ty x) v
  reads_of_grows := Reading.Spells.of_grows

variable {σ : Type} {Inner : ValueType → Type} {inner : Backend σ Inner}
  {R : Reading σ (Inner .bool) Bool} {ty : ValueType}

/-- Handles of bits that are put in a row stand for the word of these bits. -/
theorem spells_ofFn {σ β : Type} {R : Reading σ β Bool} {w : R.World} {width : Nat}
    {handles : Fin width → β} {bit : Fin width → Bool}
    (hbits : ∀ i, R.Reads w (handles i) (bit i)) :
    R.SpellsWord w (List.ofFn handles) (Bits.word bit) := by
  refine ⟨List.length_ofFn, fun i hi => ?_⟩
  rw [List.length_ofFn] at hi
  rw [List.getElem_ofFn, Bits.getLsbD_word _ hi]
  exact hbits ⟨i, hi⟩

theorem inherited_eq (inner : Backend σ Inner) (assertion : Capability) :
    inherited inner assertion = assertion ∨ inherited inner assertion = .none := by
  unfold inherited
  split
  · exact .inl rfl
  · exact .inr rfl

/-- Connectives and constants are offered on every type. -/
theorem require_connective (inner : Backend σ Inner) (ty : ValueType) {wanted : Capability}
    (hwanted : wanted ∈ [.none, .and, .or, .xor, .not]) (operation : String) :
    (table inner).require name ty wanted operation = .ok () := by
  simp only [List.mem_cons, List.not_mem_nil, or_false] at hwanted
  obtain ⟨offered, hoffered, hincludes⟩ : ∃ offered, (table inner).offered? ty = some offered ∧
      offered.closure.includes wanted = true := by
    cases ty <;> refine ⟨_, rfl, ?_⟩ <;>
      rcases inherited_eq inner .assertTrue with htrue | htrue <;>
      rcases inherited_eq inner .assertEq with heq | heq <;> simp only [htrue, heq] <;>
      rcases hwanted with rfl | rfl | rfl | rfl | rfl <;> decide
  exact Table.require_of_offered hoffered hincludes _ _

theorem require_word (inner : Backend σ Inner) (hword : ty.isWord = true) {wanted : Capability}
    (hwanted : wanted ∈ [.shift, .rotate, .wrappingAdd]) (operation : String) :
    (table inner).require name ty wanted operation = .ok () := by
  simp only [List.mem_cons, List.not_mem_nil, or_false] at hwanted
  have hincludes : (Capability.word ||| inherited inner .assertEq).closure.includes wanted = true := by
    rcases inherited_eq inner .assertEq with heq | heq <;> rw [heq] <;>
      rcases hwanted with rfl | rfl | rfl <;> decide
  cases ty with
  | bool => cases hword
  | u8 => exact Table.require_of_offered rfl hincludes _ _
  | u32 => exact Table.require_of_offered rfl hincludes _ _

theorem exists_require_bool_error (inner : Backend σ Inner) {wanted : Capability}
    (hwanted : wanted ∈ [.shift, .rotate, .wrappingAdd]) (operation : String) :
    ∃ fault, (table inner).require name .bool wanted operation = .error fault ∧
      fault.kind = .type := by
  simp only [List.mem_cons, List.not_mem_nil, or_false] at hwanted
  refine Table.exists_require_error ?_ _ _
  change (Capability.boolean ||| inherited inner .assertTrue ||| inherited inner .assertEq).closure.includes
    wanted = false
  rcases inherited_eq inner .assertTrue with htrue | htrue <;>
    rcases inherited_eq inner .assertEq with heq | heq <;> rw [htrue, heq] <;>
    rcases hwanted with rfl | rfl | rfl <;> decide

/-- Equality can be asserted on every type if it can be on the inner truth values. -/
theorem require_assertEq (hsupports : inner.table.supports .bool .assertEq = true) (ty : ValueType)
    (operation : String) : (table inner).require name ty .assertEq operation = .ok () := by
  have heq : inherited inner .assertEq = .assertEq := if_pos hsupports
  obtain ⟨offered, hoffered, hincludes⟩ : ∃ offered, (table inner).offered? ty = some offered ∧
      offered.closure.includes .assertEq = true := by
    cases ty <;> refine ⟨_, rfl, ?_⟩ <;>
      rcases inherited_eq inner .assertTrue with htrue | htrue <;> simp only [htrue, heq] <;> decide
  exact Table.require_of_offered hoffered hincludes _ _

theorem require_assertTrue (hsupports : inner.table.supports .bool .assertTrue = true)
    (operation : String) : (table inner).require name .bool .assertTrue operation = .ok () := by
  have htrue : inherited inner .assertTrue = .assertTrue := if_pos hsupports
  refine Table.require_of_offered rfl ?_ _ _
  rcases inherited_eq inner .assertEq with heq | heq <;> rw [htrue, heq] <;> decide

theorem wrap_of_supports (inner : Backend σ Inner)
    (hsupports : inner.table.supports .bool .boolean = true) :
    wrap inner = .ok (backend inner (table inner)) :=
  bind_eq_ok_iff.mpr ⟨(), Table.require_of_supports hsupports (by decide) _ _, rfl⟩

section Words

variable (hR : R.Respects inner) {w : R.World} {a b : List (Inner .bool)} {u v : BitVec ty.width}

include hR

theorem follows_words_constant (ty : ValueType) (d : Datum) :
    R.Follows w ((words inner (table inner)).constant ty d) (fun w' out r => R.SpellsWord w' out r)
      (ty.value d) := by
  refine .check (require_connective inner ty (by simp) _) ?_
  obtain ⟨v, hvalidate, hvalue⟩ | ⟨fault, hvalidate, hvalue⟩ := ty.value_cases d
  · rw [hvalue]
    exact yields_constantBits hR hvalidate
  · rw [hvalue]
    exact .of_error hvalidate _

theorem follows_words_binary (hword : ty.isWord = true) (op : BinaryOp) (ha : R.SpellsWord w a u)
    (hb : R.SpellsWord w b v) :
    R.Follows w (op.run (words inner (table inner)) ty a b)
      (fun w' out r => R.SpellsWord w' out r) (op.value ty u v) := by
  cases op with
  | and =>
    exact .check (require_connective inner ty (by simp) _)
      (.of_yields (yields_bitwise hR.and ha hb fun _ _ => BitVec.getLsbD_and))
  | or =>
    exact .check (require_connective inner ty (by simp) _)
      (.of_yields (yields_bitwise hR.or ha hb fun _ _ => BitVec.getLsbD_or))
  | xor =>
    exact .check (require_connective inner ty (by simp) _)
      (.of_yields (yields_bitwise hR.xor ha hb fun _ _ => BitVec.getLsbD_xor))
  | wrappingAdd =>
    rw [BinaryOp.value, if_pos hword]
    exact .check (require_word inner hword (by simp) _) (.of_yields (yields_addBits hR ha hb))

theorem follows_words_shift (hword : ty.isWord = true) (op : ShiftOp) (ha : R.SpellsWord w a u)
    (amount : Datum) :
    R.Follows w (op.run (words inner (table inner)) ty a amount)
      (fun w' out r => R.SpellsWord w' out r) (op.value ty u amount) := by
  rw [ShiftOp.value, if_pos hword]
  have hshift (operation : String) : (table inner).require name ty .shift operation = .ok () :=
    require_word inner hword (by simp) operation
  have hrotate (operation : String) : (table inner).require name ty .rotate operation = .ok () :=
    require_word inner hword (by simp) operation
  cases hamount : ty.shiftAmount amount op.isRotation with
  | ok k =>
    cases op with
    | shl => exact .check (hshift _) (.of_yields (yields_shiftUp hR ha hamount))
    | shr => exact .check (hshift _) (.of_yields (yields_shiftDown hR ha hamount))
    | rotl => exact .check (hrotate _) (.of_yields (yields_rotateUp ha hamount))
    | rotr => exact .check (hrotate _) (.of_yields (yields_rotateDown ha hamount))
  | error fault =>
    cases op with
    | shl => exact .check (hshift _) (.of_error hamount _)
    | shr => exact .check (hshift _) (.of_error hamount _)
    | rotl => exact .check (hrotate _) (.of_error hamount _)
    | rotr => exact .check (hrotate _) (.of_error hamount _)

end Words

section TruthValues

/-- Under no table are truth values shifted, rotated or added. Where the table offers it, it
    still fails, because a single handle is no list of bits. -/
theorem truth_values_never_moved (inner : Backend σ Inner) (table : Table) (x y : Inner .bool)
    (amount : Datum) (s : σ) :
    (∀ op : ShiftOp, ∃ fault,
      (op.run (backend inner table) .bool x amount).exec s = (.error fault, s)) ∧
    ∃ fault, ((backend inner table).wrappingAdd .bool x y).exec s = (.error fault, s) := by
  have hmove (wanted : Capability) (operation : String) (rotation : Bool) : ∃ fault,
      (moveTruth table wanted operation rotation amount : Action σ (Inner .bool)).exec s =
        (.error fault, s) := by
    unfold moveTruth
    cases hrequire : table.require name .bool wanted operation with
    | error fault => exact ⟨fault, rfl⟩
    | ok =>
      cases hamount : ValueType.bool.shiftAmount amount rotation with
      | error fault => exact ⟨fault, rfl⟩
      | ok k => exact ⟨.notSequence, rfl⟩
  constructor
  · intro op
    cases op <;> exact hmove _ _ _
  · change ∃ fault, (addTruths table : Action σ (Inner .bool)).exec s = (.error fault, s)
    unfold addTruths
    cases hrequire : table.require name .bool .wrappingAdd "wrapping_add" with
    | error fault => exact ⟨fault, rfl⟩
    | ok => exact ⟨.notSequence, rfl⟩

/-- Slicing's own table offers neither sums nor shifts nor rotations of truth values. -/
theorem exists_exec_bool_wrappingAdd_error (inner : Backend σ Inner) (x y : Inner .bool) (s : σ) :
    ∃ fault, ((backend inner (table inner)).wrappingAdd .bool x y).exec s = (.error fault, s) ∧
      fault.kind = .type := by
  have hwanted : Capability.wrappingAdd ∈ [Capability.shift, .rotate, .wrappingAdd] := by simp
  obtain ⟨fault, hfault, hkind⟩ := exists_require_bool_error inner hwanted "wrapping_add"
  refine ⟨fault, ?_, hkind⟩
  exact Action.exec_bind_of_error (by rw [hfault, Action.exec_liftM])

theorem exists_exec_bool_shift_error (inner : Backend σ Inner) (op : ShiftOp) (x : Inner .bool)
    (amount : Datum) (s : σ) :
    ∃ fault, (op.run (backend inner (table inner)) .bool x amount).exec s = (.error fault, s) ∧
      fault.kind = .type := by
  obtain ⟨wanted, operation, rotation, hwanted, hrun⟩ : ∃ wanted operation rotation,
      wanted ∈ [Capability.shift, .rotate, .wrappingAdd] ∧
        op.run (backend inner (table inner)) .bool x amount =
          moveTruth (table inner) wanted operation rotation amount := by
    cases op with
    | shl => exact ⟨.shift, "shl", false, by simp, rfl⟩
    | shr => exact ⟨.shift, "shr", false, by simp, rfl⟩
    | rotl => exact ⟨.rotate, "rotl", true, by simp, rfl⟩
    | rotr => exact ⟨.rotate, "rotr", true, by simp, rfl⟩
  obtain ⟨fault, hfault, hkind⟩ := exists_require_bool_error inner hwanted operation
  rw [hrun]
  refine ⟨fault, ?_, hkind⟩
  exact Action.exec_bind_of_error (by rw [hfault, Action.exec_liftM])

variable (hR : R.Respects inner) {w : R.World} {x y : Inner .bool} {u v : BitVec ValueType.bool.width}

include hR

theorem follows_bool_constant (d : Datum) :
    R.Follows w ((backend inner (table inner)).constant .bool d)
      (fun w' out r => R.SpellsWord w' [out] r) (ValueType.bool.value d) := by
  refine .check (require_connective inner .bool (by simp) _) ?_
  obtain ⟨v, hvalidate, hvalue⟩ | ⟨fault, hvalidate, hvalue⟩ := ValueType.bool.value_cases d
  · rw [hvalue]
    refine Frame.Follows.check hvalidate (.of_yields ?_)
    exact (hR.constant w (v.getLsbD 0)).imp fun _ _ _ hout => R.spells_singleton_iff.mpr hout
  · rw [hvalue]
    exact .of_error hvalidate _

theorem follows_bool_binary (op : BinaryOp) (hx : R.SpellsWord w [x] u) (hy : R.SpellsWord w [y] v) :
    R.Follows w (op.run (backend inner (table inner)) .bool x y)
      (fun w' out r => R.SpellsWord w' [out] r) (op.value .bool u v) := by
  have hx := R.spells_singleton_iff.mp hx
  have hy := R.spells_singleton_iff.mp hy
  cases op with
  | and =>
    refine .check (require_connective inner .bool (by simp) _) (.of_yields ?_)
    refine (hR.and hx hy).imp fun _ _ _ hout => R.spells_singleton_iff.mpr ?_
    rwa [BitVec.getLsbD_and]
  | or =>
    refine .check (require_connective inner .bool (by simp) _) (.of_yields ?_)
    refine (hR.or hx hy).imp fun _ _ _ hout => R.spells_singleton_iff.mpr ?_
    rwa [BitVec.getLsbD_or]
  | xor =>
    refine .check (require_connective inner .bool (by simp) _) (.of_yields ?_)
    refine (hR.xor hx hy).imp fun _ _ _ hout => R.spells_singleton_iff.mpr ?_
    rwa [BitVec.getLsbD_xor]
  | wrappingAdd =>
    obtain ⟨fault, hexec, hkind⟩ := exists_exec_bool_wrappingAdd_error inner x y (R.state w)
    exact ⟨fault, R.state w, hexec, hkind⟩

theorem yields_bool_not (hx : R.SpellsWord w [x] u) :
    R.Yields w ((backend inner (table inner)).not .bool x)
      (fun w' out => R.SpellsWord w' [out] (~~~u)) := by
  refine .check (require_connective inner .bool (by simp) _) ?_
  refine (hR.not (R.spells_singleton_iff.mp hx)).imp fun _ _ _ hout => R.spells_singleton_iff.mpr ?_
  rw [BitVec.getLsbD_not]
  exact hout

end TruthValues

/-- Over connectives of truth values that are those of Boolean algebra, slicing gives
    the operations on bit vectors of each width. -/
theorem sliced_models (hR : R.Respects inner) (ty : ValueType) :
    (sliced R).Models (backend inner (table inner)) ty where
  constant _ d := by
    cases ty with
    | bool => exact follows_bool_constant hR d
    | u8 => exact follows_words_constant hR .u8 d
    | u32 => exact follows_words_constant hR .u32 d
  binary op _ _ _ _ _ hx hy := by
    cases ty with
    | bool => exact follows_bool_binary hR op hx hy
    | u8 =>
      have hwords := follows_words_binary hR rfl op hx hy
      cases op <;> exact hwords
    | u32 =>
      have hwords := follows_words_binary hR rfl op hx hy
      cases op <;> exact hwords
  not hx := by
    cases ty with
    | bool => exact yields_bool_not hR hx
    | u8 => exact .check (require_connective inner .u8 (by simp) _) (yields_complement hR hx)
    | u32 => exact .check (require_connective inner .u32 (by simp) _) (yields_complement hR hx)
  shift op w x _ amount hx := by
    cases ty with
    | bool =>
      obtain ⟨fault, hexec, hkind⟩ := exists_exec_bool_shift_error inner op x amount (R.state w)
      exact ⟨fault, R.state w, hexec, hkind⟩
    | u8 =>
      have hwords := follows_words_shift hR rfl op hx amount
      cases op <;> exact hwords
    | u32 =>
      have hwords := follows_words_shift hR rfl op hx amount
      cases op <;> exact hwords

end WordCircuit.BitSliced
