import WordCircuit.Partial
import WordCircuit.Proofs.ConstraintSystem.Connectives
import WordCircuit.Proofs.Direct.Words

namespace WordCircuit

/-- The complement within a type is what the mask exceeds a number by, and disjunction is the
    complement of the conjunction of the complements. -/
theorem ValueType.mask_sub_and_eq_or (ty : ValueType) {m n : Nat} (hm : m ≤ ty.mask)
    (hn : n ≤ ty.mask) : ty.mask - ((ty.mask - m) &&& (ty.mask - n)) = m ||| n := by
  have hword {k : Nat} (hk : k ≤ ty.mask) : ∃ v : BitVec ty.width, v.toNat = k := by
    have hpos := Nat.two_pow_pos ty.width
    rw [mask, Nat.one_shiftLeft] at hk
    exact ⟨.ofNat ty.width k, by rw [BitVec.toNat_ofNat, Nat.mod_eq_of_lt (by omega)]⟩
  have hcomplement (v : BitVec ty.width) : ty.mask - v.toNat = (~~~v).toNat := by
    rw [mask, Nat.one_shiftLeft, BitVec.toNat_not]
  obtain ⟨u, rfl⟩ := hword hm
  obtain ⟨v, rfl⟩ := hword hn
  rw [hcomplement u, hcomplement v, ← BitVec.toNat_and, hcomplement, BitVec.not_and,
    BitVec.not_not, BitVec.not_not, BitVec.toNat_or]

theorem ValueType.or_le_mask {ty : ValueType} {m n : Nat} (hm : m ≤ ty.mask) (hn : n ≤ ty.mask) :
    m ||| n ≤ ty.mask := by
  rw [← ty.mask_sub_and_eq_or hm hn]
  exact Nat.sub_le _ _

theorem Capability.includes_or_self (offered wanted : Capability) :
    (offered ||| wanted).includes wanted = true := by
  refine beq_iff_eq.mpr (BitVec.eq_of_getLsbD_eq fun i _ => ?_)
  change ((offered.flags ||| wanted.flags) &&& wanted.flags).getLsbD i = _
  rw [BitVec.getLsbD_and, BitVec.getLsbD_or]
  cases offered.flags.getLsbD i <;> cases wanted.flags.getLsbD i <;> rfl

/-- The table names the operation itself, so that nothing has to be derived. -/
def Table.Declares (table : Table) (ty : ValueType) (wanted : Capability) : Prop :=
  ∃ offered, table.offered? ty = some offered ∧ offered.includes wanted = true

instance (table : Table) (ty : ValueType) (wanted : Capability) :
    Decidable (table.Declares ty wanted) :=
  decidable_of_iff ((table.offered? ty).any (·.includes wanted) = true) (Option.any_eq_true _ _)

theorem Table.Declares.supports_or {table : Table} {ty : ValueType} (hand : table.Declares ty .and)
    (hnot : table.Declares ty .not) : table.supports ty .or = true := by
  obtain ⟨offered, hoffered, hand⟩ := hand
  obtain ⟨offered', hoffered', hnot⟩ := hnot
  obtain rfl := Option.some.inj (hoffered.symm.trans hoffered')
  apply supports_of_offered hoffered
  rw [Capability.closure, hand, hnot]
  exact Capability.includes_or_self offered .or

variable {σ : Type} {Handle : ValueType → Type}

/-- The backend has no disjunction of its own. It negates the conjunction of the negations. -/
def Backend.DerivesOr (b : Backend σ Handle) : Prop :=
  b.or = fun ty x y => do
    b.require ty .or "or"
    let notX ← b.not ty x
    let notY ← b.not ty y
    b.not ty (← b.and ty notX notY)

namespace Reading

/-- On the numbers that belong to a type, conjunction acts bit by bit and negation gives the
    complement within the mask. -/
structure Complements (ty : ValueType) (R : Reading σ (Handle ty) Nat) (b : Backend σ Handle) :
    Prop where
  and : ∀ {w : R.World} {x y : Handle ty} {m n : Nat}, m ≤ ty.mask → n ≤ ty.mask →
    R.Reads w x m → R.Reads w y n → R.Yields w (b.and ty x y) (R.Reads · · (m &&& n))
  not : ∀ {w : R.World} {x : Handle ty} {n : Nat}, n ≤ ty.mask → R.Reads w x n →
    R.Yields w (b.not ty x) (R.Reads · · (ty.mask - n))

theorem Complements.yields_or {b : Backend σ Handle} {ty : ValueType}
    {R : Reading σ (Handle ty) Nat} (h : R.Complements ty b) (hderives : b.DerivesOr)
    (hsupports : b.table.supports ty .or = true) {w : R.World} {x y : Handle ty} {m n : Nat}
    (hm : m ≤ ty.mask) (hn : n ≤ ty.mask) (hx : R.Reads w x m) (hy : R.Reads w y n) :
    R.Yields w (b.or ty x y) (R.Reads · · (m ||| n)) := by
  rw [hderives]
  refine .check (Table.require_of_supports hsupports (by decide) _ _) ?_
  refine (h.not hm hx).bind fun w₁ notX hgrows₁ hnotX => ?_
  refine (h.not hn (R.reads_of_grows hgrows₁ hy)).bind fun w₂ notY hgrows₂ hnotY => ?_
  have hnotX := R.reads_of_grows hgrows₂ hnotX
  refine (h.and (Nat.sub_le _ _) (Nat.sub_le _ _) hnotX hnotY).bind fun w₃ neither _ hneither => ?_
  -- Only numbers within the mask have a complement, so the conjunction has to be one of them.
  have hle : (ty.mask - m) &&& (ty.mask - n) ≤ ty.mask := Nat.and_le_left.trans (Nat.sub_le _ _)
  have hresult := h.not hle hneither
  rwa [ty.mask_sub_and_eq_or hm hn] at hresult

/-- The reading of truth values as the numbers zero and one. -/
abbrev toNumbers {β : Type} (R : Reading σ β Bool) : Reading σ β Nat where
  toFrame := R.toFrame
  Reads w x n := ∃ v : Bool, v.toNat = n ∧ R.Reads w x v
  reads_of_grows hgrows := fun ⟨v, hv, hx⟩ => ⟨v, hv, R.reads_of_grows hgrows hx⟩

/-- Boolean algebra is complement and conjunction of numbers of one bit. -/
theorem Respects.complements {b : Backend σ Handle} {R : Reading σ (Handle .bool) Bool}
    (h : R.Respects b) : R.toNumbers.Complements .bool b where
  and := by
    rintro w x y _ _ - - ⟨u, rfl, hx⟩ ⟨v, rfl, hy⟩
    exact (h.and hx hy).imp fun _ _ _ hresult => ⟨u && v, by cases u <;> cases v <;> rfl, hresult⟩
  not := by
    rintro w x _ - ⟨u, rfl, hx⟩
    exact (h.not hx).imp fun _ _ _ hresult => ⟨!u, by cases u <;> rfl, hresult⟩

end Reading

namespace Direct

theorem number_of_integer? {d : Datum} {n : Int} (h : d.integer? = some n) : number d = n := by
  rw [number, h, Option.getD_some]

/-- A connective that does the same to truth values as to their numbers gives the same
    number for both. -/
theorem integer?_connective {onBools : Bool → Bool → Bool} {onIntegers : Int → Int → Int}
    (hagree : ∀ p q, number (.bool (onBools p q)) = onIntegers (number (.bool p)) (number (.bool q)))
    {d e : Datum} {m n : Int} (hd : d.integer? = some m) (he : e.integer? = some n) :
    (connective onBools onIntegers d e).integer? = some (onIntegers m n) := by
  obtain rfl := number_of_integer? hd
  obtain rfl := number_of_integer? he
  unfold connective
  split
  · rename_i p q
    exact congrArg some (hagree p q)
  · rfl

theorem integer?_conjunction {d e : Datum} {m n : Nat} (hd : d.integer? = some (m : Int))
    (he : e.integer? = some (n : Int)) :
    (conjunction d e).integer? = some ((m &&& n : Nat) : Int) :=
  integer?_connective (fun p q => by cases p <;> cases q <;> rfl) hd he

theorem integer?_disjunction {d e : Datum} {m n : Nat} (hd : d.integer? = some (m : Int))
    (he : e.integer? = some (n : Int)) :
    (disjunction d e).integer? = some ((m ||| n : Nat) : Int) :=
  integer?_connective (fun p q => by cases p <;> cases q <;> rfl) hd he

/-- Values that are numbers stand for these, whether they are truth values or integers. -/
abbrev numbers : Reading Journal Datum Nat where
  toFrame := values.toFrame
  Reads _ d n := d.integer? = some (n : Int)
  reads_of_grows _ h := h

end Direct

namespace Partial

/-- The difference of an integer and a value that is one. -/
theorem sub_of_integer? (m : Int) {d : Datum} {n : Int} (hd : d.integer? = some n) :
    (Datum.int m).sub d = .ok (.int (m - n)) := by
  cases d with
  | bool p =>
    obtain rfl := Option.some.inj hd
    rfl
  | int k =>
    obtain rfl := Option.some.inj hd
    rfl
  | _ => cases hd

theorem conjunctionNegation_derivesOr (table : Table) : (conjunctionNegation table).DerivesOr :=
  rfl

theorem conjunctionNegation_complements (table : Table) (ty : ValueType) :
    Direct.numbers.Complements ty (conjunctionNegation table) where
  and _ _ hx hy := .pure (Direct.integer?_conjunction hx hy)
  not {j d n} hn hd := by
    refine ⟨.int (ty.mask - n : Nat), j, ?_, rfl, rfl⟩
    rw [Int.ofNat_sub hn, ← Action.exec_liftM, ← sub_of_integer? ty.mask hd]
    rfl

end Partial

namespace ConstraintSystem

theorem backend_derivesOr (table : Table) : (backend table).DerivesOr :=
  rfl

theorem backend_complements (given : Assignment → Prop) (p : Modulus) :
    (bitReading given).toNumbers.Complements .bool (backend (table p)) :=
  (bitReading_respects given p).complements

end ConstraintSystem

/-- A disjunction that is derived stands for the number that direct evaluation gives for values
    with the same numbers, and this number belongs to the type. It is there as soon as a table
    declares conjunction and negation. -/
theorem derived_disjunction_is_native {b : Backend σ Handle} {ty : ValueType}
    {R : Reading σ (Handle ty) Nat} (hderives : b.DerivesOr) (hcomplements : R.Complements ty b) :
    (b.table.Declares ty .and → b.table.Declares ty .not →
        b.table.supports ty .or = true ∧ ∀ operation, b.require ty .or operation = .ok ()) ∧
      (b.table.supports ty .or = true →
        ∀ {w : R.World} {x y : Handle ty} {m n : Nat}, m ≤ ty.mask → n ≤ ty.mask →
          R.Reads w x m → R.Reads w y n →
            m ||| n ≤ ty.mask ∧ R.Yields w (b.or ty x y) (R.Reads · · (m ||| n)) ∧
              ∀ {d e : Datum} (j : Journal), d.integer? = some (m : Int) →
                e.integer? = some (n : Int) →
                  ∃ c, ((Direct.backend Direct.table).or ty d e).exec j = (.ok c, j) ∧
                    c.integer? = some ((m ||| n : Nat) : Int)) := by
  constructor
  · intro hand hnot
    have hsupports := hand.supports_or hnot
    exact ⟨hsupports, Table.require_of_supports hsupports (by decide) _⟩
  · intro hsupports w x y m n hm hn hx hy
    refine ⟨ValueType.or_le_mask hm hn, hcomplements.yields_or hderives hsupports hm hn hx hy, ?_⟩
    intro d e j hd he
    refine ⟨Direct.disjunction d e, ?_, Direct.integer?_disjunction hd he⟩
    exact Action.exec_liftM_bind_of_ok (Direct.require_connective ty (by simp) "or") j

/-- A table with conjunction and negation of bytes and nothing else. -/
def complementTable : Table :=
  .ofList [(.u8, .and ||| .not)]

/-- Twelve or ten is fourteen under a table that does not declare disjunction, and a constraint
    system offers the disjunction of truth values, which it does not declare either. -/
theorem undeclared_disjunctions_derived :
    (¬ complementTable.Declares .u8 .or ∧ complementTable.supports .u8 .or = true ∧
      Direct.numbers.Yields .empty
        ((Partial.conjunctionNegation complementTable).or .u8 (.int (12 : Nat)) (.int (10 : Nat)))
        (Direct.numbers.Reads · · 14)) ∧
      ¬ (ConstraintSystem.table .seven).Declares .bool .or ∧
        (ConstraintSystem.table .seven).supports .bool .or = true := by
  constructor
  · have hderived := derived_disjunction_is_native
      (Partial.conjunctionNegation_derivesOr complementTable)
      (Partial.conjunctionNegation_complements complementTable .u8)
    have hsupports := (hderived.1 (by decide) (by decide)).1
    have hresult := hderived.2 hsupports (w := Journal.empty) (x := .int (12 : Nat))
      (y := .int (10 : Nat)) (m := 12) (n := 10) (by decide) (by decide) rfl rfl
    exact ⟨by decide, hsupports, hresult.2.1⟩
  · have hderived := derived_disjunction_is_native
      (ConstraintSystem.backend_derivesOr (ConstraintSystem.table .seven))
      (ConstraintSystem.backend_complements (fun _ => True) .seven)
    exact ⟨by decide, (hderived.1 (by decide) (by decide)).1⟩

end WordCircuit
