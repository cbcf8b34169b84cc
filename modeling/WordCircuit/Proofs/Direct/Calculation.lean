import WordCircuit.Proofs.Program.Sliced

namespace WordCircuit

/-- The sum of two words, as long as reducing it to the width does not change it. Only words
    are added. -/
def Value.checkedSum {ty : ValueType} (u v : Value ty) : Except Fault.Kind (Value ty) :=
  if ty.isWord then
    if (u + v).toNat = u.toNat + v.toNat then .ok (u + v) else .error .overflow
  else
    .error .type

/-- A straight-line program that starts from known values alone. Besides what circuits can do
    it adds words with a check. -/
inductive Calculation : List ValueType → Type where
  | start : Calculation []
  | operation {Γ : List ValueType} {ty : ValueType} (P : Calculation Γ) (op : Operation Γ ty) :
      Calculation (ty :: Γ)
  | checkedAdd {Γ : List ValueType} {ty : ValueType} (P : Calculation Γ) (a b : Ref Γ ty) :
      Calculation (ty :: Γ)
  | assertTrue {Γ : List ValueType} (P : Calculation Γ) (a : Ref Γ .bool) : Calculation Γ
  | assertEq {Γ : List ValueType} {ty : ValueType} (P : Calculation Γ) (a b : Ref Γ ty) :
      Calculation Γ

namespace Calculation

variable {σ : Type} {Handle : ValueType → Type}

/-- Runs the steps in order, up to the first that stops. -/
def run (b : Backend σ Handle) {Γ : List ValueType} : Calculation Γ → Action σ (Env Handle Γ)
  | start => return .empty
  | operation P op => do
    let env ← P.run b
    return env.push (← op.run b env)
  | @checkedAdd _ ty P x y => do
    let env ← P.run b
    return env.push (← b.checkedAdd ty (env ty x) (env ty y))
  | assertTrue P a => do
    let env ← P.run b
    b.assertTrue (env .bool a)
    return env
  | @assertEq _ ty P x y => do
    let env ← P.run b
    b.assertEq ty (env ty x) (env ty y)
    return env

/-- The same steps on bit vectors. -/
def values {Γ : List ValueType} : Calculation Γ → Except Fault.Kind (Env Value Γ)
  | start => .ok .empty
  | operation P op => do
    let values ← P.values
    return values.push (← op.value values)
  | @checkedAdd _ ty P x y => do
    let values ← P.values
    return values.push (← (values ty x).checkedSum (values ty y))
  | assertTrue P a => do
    let values ← P.values
    asserted (values .bool a = 1)
    return values
  | @assertEq _ ty P x y => do
    let values ← P.values
    asserted (values ty x = values ty y)
    return values

end Calculation

namespace Direct

variable {ty : ValueType} {j : Journal}

theorem exceeds_int (ty : ValueType) (n : Int) :
    exceeds ty (.int n) = true ↔ (ty.mask : Int) < n :=
  decide_eq_true_iff

/-- A sum is too large exactly if reducing it to the width changes it. -/
theorem exceeds_sum_iff (u v : Value ty) :
    exceeds ty (.int ((u.toNat : Int) + v.toNat)) = true ↔ ¬(u + v).toNat = u.toNat + v.toNat := by
  rw [exceeds_int, ValueType.mask, Nat.one_shiftLeft, BitVec.toNat_add]
  have hmod := Nat.mod_lt (u.toNat + v.toNat) (Nat.two_pow_pos ty.width)
  constructor
  · intro hlarge heq
    omega
  · intro hne
    by_contra hsmall
    exact hne (Nat.mod_eq_of_lt (by omega))

theorem require_checkedAdd (hword : ty.isWord = true) (operation : String) :
    table.require name ty .add operation = .ok () := by
  cases ty with
  | bool => cases hword
  | u8 => exact Table.require_of_offered rfl (by decide) _ _
  | u32 => exact Table.require_of_offered rfl (by decide) _ _

/-- Two words are added with a check as they are added modulo the width, except that a sum
    which would wrap is refused in terms of the operands. -/
theorem exec_checkedAdd (hword : ty.isWord = true) (u v : Value ty) (j : Journal) :
    ((backend table).checkedAdd ty (ty.datum u) (ty.datum v)).exec j =
      if (u + v).toNat = u.toNat + v.toNat then (.ok (.int ((u.toNat : Int) + v.toNat)), j)
      else (.error (.sumOverflow ty (toString u.toNat) (toString v.toNat)), j) := by
  have hplain (w : Value ty) : (ty.datum w).plain = .ok (toString w.toNat) := by
    rw [datum_of_isWord hword]
    rfl
  have hrun : (backend table).checkedAdd ty (ty.datum u) (ty.datum v) = (do
      table.require name ty .add "add"
      let total ← (ty.datum u).add (ty.datum v)
      if exceeds ty total then
        throw (.sumOverflow ty (← (ty.datum u).plain) (← (ty.datum v).plain))
      return total) := rfl
  rw [hrun, Action.exec_liftM_bind_of_ok (require_checkedAdd hword _),
    Action.exec_liftM_bind_of_ok (add_datum hword u v), hplain, hplain]
  by_cases hfits : (u + v).toNat = u.toNat + v.toNat
  · have hbelow : exceeds ty (.int ((u.toNat : Int) + v.toNat)) = false := by
      rw [Bool.eq_false_iff, Ne, exceeds_sum_iff, not_not]
      exact hfits
    rw [if_pos hfits, hbelow]
    rfl
  · rw [if_neg hfits, (exceeds_sum_iff u v).mpr hfits]
    rfl

theorem follows_checkedAdd (u v : Value ty) :
    values.Follows j ((backend table).checkedAdd ty (ty.datum u) (ty.datum v)) (values.Reads · ty)
      (u.checkedSum v) := by
  by_cases hword : ty.isWord = true
  · have hexec := exec_checkedAdd hword u v j
    rw [Value.checkedSum, if_pos hword]
    by_cases hfits : (u + v).toNat = u.toNat + v.toNat
    · have hsum : Datum.int ((u.toNat : Int) + v.toNat) = ty.datum (u + v) := by
        rw [datum_of_isWord hword, hfits, Int.natCast_add]
      rw [if_pos hfits] at hexec ⊢
      exact ⟨_, j, hexec, rfl, hsum⟩
    · rw [if_neg hfits] at hexec ⊢
      exact ⟨_, j, hexec, rfl⟩
  · rw [Value.checkedSum, if_neg hword]
    cases ty with
    | bool =>
      have hmissing : table.supports .bool .add = false := by decide
      obtain ⟨fault, hfault, hkind⟩ := Table.exists_require_error hmissing name "add"
      exact hkind ▸ Frame.Follows.of_error hfault _
    | u8 => exact absurd rfl hword
    | u32 => exact absurd rfl hword

/-- Handles of direct evaluation follow the calculation on bit vectors, step by step. -/
theorem follows_calculation {Γ : List ValueType} (P : Calculation Γ) (j : Journal) :
    values.Follows j (P.run (backend table)) (fun j' env vs => values.ReadsAll j' env vs) P.values := by
  induction P with
  | start => exact .of_yields (.pure fun _ r => nomatch r)
  | @operation _ ty P op ih =>
    refine Frame.Follows.bind ih fun j' env vs _ henv => ?_
    refine (henv.follows (values_models ty) op).bind fun _ x v hgrows hx => .of_yields (.pure ?_)
    exact (henv.of_grows hgrows).push hx
  | @checkedAdd _ ty P x y ih =>
    refine Frame.Follows.bind ih fun j' env vs _ henv => ?_
    rw [show env ty x = ty.datum (vs ty x) from henv ty x,
      show env ty y = ty.datum (vs ty y) from henv ty y]
    refine (follows_checkedAdd _ _).bind fun _ x v hgrows hx => .of_yields (.pure ?_)
    exact (henv.of_grows hgrows).push hx
  | assertTrue P a ih =>
    refine Frame.Follows.bind ih fun j' env vs _ henv => ?_
    rw [show env .bool a = ValueType.bool.datum (vs .bool a) from henv .bool a]
    refine (follows_assertTrue _).bind fun _ _ _ hgrows _ => .of_yields (.pure ?_)
    exact henv.of_grows hgrows
  | @assertEq _ ty P x y ih =>
    refine Frame.Follows.bind ih fun j' env vs _ henv => ?_
    rw [show env ty x = ty.datum (vs ty x) from henv ty x,
      show env ty y = ty.datum (vs ty y) from henv ty y]
    refine (follows_assertEq _ _).bind fun _ _ _ hgrows _ => .of_yields (.pure ?_)
    exact henv.of_grows hgrows

/-- The handle is a value of its type: a truth value, or an integer that fits the width. -/
def InRange : ValueType → Datum → Prop
  | .bool, d => ∃ b, d = .bool b
  | ty, d => ∃ n : Int, d = .int n ∧ 0 ≤ n ∧ n < 2 ^ ty.width

theorem inRange_datum (v : Value ty) : InRange ty (ty.datum v) := by
  have hlt : (v.toNat : Int) < 2 ^ ty.width := by exact_mod_cast v.isLt
  cases ty with
  | bool => exact ⟨_, rfl⟩
  | u8 => exact ⟨_, rfl, Int.natCast_nonneg _, hlt⟩
  | u32 => exact ⟨_, rfl, Int.natCast_nonneg _, hlt⟩

/-- A handle in the range of its type is that of some value, because it would pass as a
    constant. -/
theorem InRange.exists_datum {d : Datum} (h : InRange ty d) : ∃ v : Value ty, d = ty.datum v := by
  have hmask {n : Int} (hhi : n < 2 ^ ty.width) : n ≤ ty.mask := by
    have hcast : ((2 ^ ty.width : Nat) : Int) = 2 ^ ty.width := Int.natCast_pow 2 ty.width
    rw [ValueType.mask, Nat.one_shiftLeft]
    omega
  have hvalidate : ty.validate d = .ok d := by
    cases ty with
    | bool =>
      obtain ⟨b, rfl⟩ := h
      rfl
    | u8 =>
      obtain ⟨n, rfl, hlo, hhi⟩ := h
      exact if_pos ⟨hlo, hmask hhi⟩
    | u32 =>
      obtain ⟨n, rfl, hlo, hhi⟩ := h
      exact if_pos ⟨hlo, hmask hhi⟩
  exact ⟨_, ValueType.eq_datum_of_validate hvalidate⟩

/-- On the handles of two values each operation gives the handle of what the operation on bit
    vectors gives. Words alone are moved and added. -/
structure Native {ty : ValueType} (u v : Value ty) (j : Journal) : Prop where
  and : ((backend table).and ty (ty.datum u) (ty.datum v)).exec j = (.ok (ty.datum (u &&& v)), j)
  or : ((backend table).or ty (ty.datum u) (ty.datum v)).exec j = (.ok (ty.datum (u ||| v)), j)
  xor : ((backend table).xor ty (ty.datum u) (ty.datum v)).exec j = (.ok (ty.datum (u ^^^ v)), j)
  not : ((backend table).not ty (ty.datum u)).exec j = (.ok (ty.datum (~~~u)), j)
  shl : ty.isWord = true → ∀ k : Nat, k ≤ ty.width →
    ((backend table).shl ty (ty.datum u) (.int k)).exec j = (.ok (ty.datum (u <<< k)), j)
  shr : ty.isWord = true → ∀ k : Nat, k ≤ ty.width →
    ((backend table).shr ty (ty.datum u) (.int k)).exec j = (.ok (ty.datum (u >>> k)), j)
  rotl : ty.isWord = true → ∀ k : Nat, k < ty.width →
    ((backend table).rotl ty (ty.datum u) (.int k)).exec j = (.ok (ty.datum (u.rotateLeft k)), j)
  rotr : ty.isWord = true → ∀ k : Nat, k < ty.width →
    ((backend table).rotr ty (ty.datum u) (.int k)).exec j = (.ok (ty.datum (u.rotateRight k)), j)
  wrappingAdd : ty.isWord = true →
    ((backend table).wrappingAdd ty (ty.datum u) (ty.datum v)).exec j = (.ok (ty.datum (u + v)), j)
  checkedAdd : ty.isWord = true →
    ((backend table).checkedAdd ty (ty.datum u) (ty.datum v)).exec j =
      if (u + v).toNat = u.toNat + v.toNat then (.ok (.int ((u.toNat : Int) + v.toNat)), j)
      else (.error (.sumOverflow ty (toString u.toNat) (toString v.toNat)), j)

theorem exec_of_follows {act : Action Journal Datum} {v : Value ty}
    (h : values.Follows j act (values.Reads · ty) (.ok v)) : act.exec j = (.ok (ty.datum v), j) := by
  obtain ⟨d, j', hexec, rfl, rfl⟩ := h
  exact hexec

theorem exec_shift (hword : ty.isWord = true) (op : ShiftOp) (u : Value ty) {k : Nat}
    (hk : k ≤ if op.isRotation then ty.width - 1 else ty.width) (j : Journal) :
    (op.run (backend table) ty (ty.datum u) (.int k)).exec j = (.ok (ty.datum (op.move u k)), j) := by
  have hfollows := follows_shift op (j := j) u (.int k)
  rw [op.value_of_isWord ty hword u hk] at hfollows
  exact exec_of_follows hfollows

theorem native (u v : Value ty) (j : Journal) : Native u v j where
  and := exec_of_follows (follows_binary .and u v)
  or := exec_of_follows (follows_binary .or u v)
  xor := exec_of_follows (follows_binary .xor u v)
  not := exec_of_follows (.of_yields ((values_models ty).not rfl))
  shl hword k hk := exec_shift hword .shl u hk j
  shr hword k hk := exec_shift hword .shr u hk j
  rotl hword k hk := exec_shift hword .rotl u (Nat.le_sub_one_of_lt hk) j
  rotr hword k hk := exec_shift hword .rotr u (Nat.le_sub_one_of_lt hk) j
  wrappingAdd hword := by
    have hfollows := follows_binary .wrappingAdd (j := j) u v
    rw [BinaryOp.value, if_pos hword] at hfollows
    exact exec_of_follows hfollows
  checkedAdd hword := exec_checkedAdd hword u v j

/-- Direct evaluation of a program on known values is the program on bit vectors. It completes
    exactly if that does, and stops at a fault of the same kind otherwise, and then each handle
    is in the range of its type and stands for the bit vector. On such handles all operations
    are those of fixed-width arithmetic; the checked sum is the sum of the integers as long as
    wrapping does not change it, and refused otherwise. -/
theorem calculation_is_fixed_width {Γ : List ValueType} (P : Calculation Γ) (j : Journal) :
    ((∃ env vs, P.values = .ok vs ∧ (P.run (backend table)).exec j = (.ok env, j) ∧
        ∀ (ty : ValueType) (r : Ref Γ ty), InRange ty (env ty r) ∧ env ty r = ty.datum (vs ty r)) ∨
      ∃ fault s, P.values = .error fault.kind ∧ (P.run (backend table)).exec j = (.error fault, s)) ∧
    ∀ (ty : ValueType) (u v : Value ty), Native u v j := by
  refine ⟨?_, fun ty u v => native u v j⟩
  have hfollows := follows_calculation P j
  cases hvalues : P.values with
  | ok vs =>
    rw [hvalues] at hfollows
    obtain ⟨env, _, hexec, rfl, henv⟩ := hfollows
    refine .inl ⟨env, vs, rfl, hexec, fun ty r => ?_⟩
    have hdatum : env ty r = ty.datum (vs ty r) := henv ty r
    exact ⟨hdatum ▸ inRange_datum _, hdatum⟩
  | error kind =>
    rw [hvalues] at hfollows
    obtain ⟨fault, s, hexec, rfl⟩ := hfollows
    exact .inr ⟨fault, s, rfl, hexec⟩

end Direct

end WordCircuit
