import WordCircuit.Proofs.BitSliced.Interpretation
import WordCircuit.Proofs.Coupling

namespace WordCircuit.BitSliced

open WordCircuit.Action (Couples)

variable {σ : Type} {Inner : ValueType → Type} {inner : Backend σ Inner} {S : σ → σ → Prop}
  {R : (ty : ValueType) → Inner ty → Inner ty → Prop} {ty : ValueType}
  {a a' b b' : List (Inner .bool)}

theorem couples_constantBits (hinner : inner.Uniform S R) (d d' : Datum) :
    Couples S (constantBits inner ty d) (constantBits inner ty d') (List.Forall₂ (R .bool)) := by
  refine .after_check fun _ _ => ?_
  exact Couples.mapM_same _ fun _ => hinner.constant .bool _ _

theorem couples_bitwise {op : Inner .bool → Inner .bool → Action σ (Inner .bool)}
    (hop : ∀ {x x' y y'}, R .bool x x' → R .bool y y' → Couples S (op x y) (op x' y') (R .bool))
    (ha : List.Forall₂ (R .bool) a a') (hb : List.Forall₂ (R .bool) b b') :
    Couples S (bitwise op ty a b) (bitwise op ty a' b') (List.Forall₂ (R .bool)) := by
  refine .after_check fun _ _ => .after_check fun _ _ => ?_
  exact Couples.mapM (forall₂_zip_zip ha hb) fun _ _ hbits => hop hbits.1 hbits.2

theorem couples_complement {op : Inner .bool → Action σ (Inner .bool)}
    (hop : ∀ {x x'}, R .bool x x' → Couples S (op x) (op x') (R .bool))
    (ha : List.Forall₂ (R .bool) a a') :
    Couples S (complement op ty a) (complement op ty a') (List.Forall₂ (R .bool)) := by
  refine .after_check fun _ _ => ?_
  exact Couples.mapM ha fun _ _ hbit => hop hbit

section Movement

variable (amount : Datum) (ha : List.Forall₂ (R .bool) a a')

include ha

theorem couples_shiftUp (hinner : inner.Uniform S R) :
    Couples S (shiftUp inner ty amount a) (shiftUp inner ty amount a') (List.Forall₂ (R .bool)) := by
  refine (Couples.same _).bind fun k _ hk => .after_check fun _ _ => ?_
  subst hk
  refine (hinner.constant .bool _ _).bind fun _ _ hzero => .pure ?_
  exact List.rel_append (forall₂_replicate hzero k) (List.forall₂_take _ ha)

theorem couples_shiftDown (hinner : inner.Uniform S R) :
    Couples S (shiftDown inner ty amount a) (shiftDown inner ty amount a')
      (List.Forall₂ (R .bool)) := by
  refine (Couples.same _).bind fun k _ hk => .after_check fun _ _ => ?_
  subst hk
  refine (hinner.constant .bool _ _).bind fun _ _ hzero => .pure ?_
  exact List.rel_append (List.forall₂_drop k ha) (forall₂_replicate hzero k)

theorem couples_rotateUp :
    Couples S (rotateUp ty amount a) (rotateUp ty amount a') (List.Forall₂ (R .bool)) := by
  refine (Couples.same _).bind fun k _ hk => .after_check fun _ _ => .pure ?_
  subst hk
  exact List.rel_append (List.forall₂_drop _ ha) (List.forall₂_take _ ha)

theorem couples_rotateDown :
    Couples S (rotateDown ty amount a) (rotateDown ty amount a') (List.Forall₂ (R .bool)) := by
  refine (Couples.same _).bind fun k _ hk => .after_check fun _ _ => .pure ?_
  subst hk
  exact List.rel_append (List.forall₂_drop k ha) (List.forall₂_take k ha)

end Movement

/-- The adder does the same to related bits, position by position. -/
theorem couples_ripple (hinner : inner.Uniform S R) {bits bits' : List (Inner .bool × Inner .bool)}
    (hbits : List.Forall₂ (fun bit bit' => R .bool bit.1 bit'.1 ∧ R .bool bit.2 bit'.2) bits bits')
    {carry carry' : Inner .bool} (hcarry : R .bool carry carry') :
    Couples S (ripple inner carry bits) (ripple inner carry' bits') (List.Forall₂ (R .bool)) := by
  induction hbits generalizing carry carry' with
  | nil => exact .pure .nil
  | @cons bit bit' rest rest' hbit hrest ih =>
    obtain ⟨hx, hy⟩ := hbit
    rw [ripple, ripple]
    refine (hinner.binary .xor .bool hx hy).bind fun p p' hp => ?_
    refine (hinner.binary .xor .bool hp hcarry).bind fun sum sum' hsum => ?_
    -- Whether there is a further carry is decided by the number of bits that are left.
    have hempty : rest.isEmpty = rest'.isEmpty := by
      rw [Bool.eq_iff_iff, List.isEmpty_iff_length_eq_zero, List.isEmpty_iff_length_eq_zero,
        hrest.length_eq]
    rw [hempty]
    split
    · exact .pure (.cons hsum .nil)
    · refine (hinner.binary .and .bool hx hy).bind fun both both' hboth => ?_
      refine (hinner.binary .and .bool hcarry hp).bind fun passed passed' hpassed => ?_
      refine (hinner.binary .or .bool hboth hpassed).bind fun next next' hnext => ?_
      exact (ih hnext).bind fun out out' hout => .pure (.cons hsum hout)

theorem couples_addBits (hinner : inner.Uniform S R) (ha : List.Forall₂ (R .bool) a a')
    (hb : List.Forall₂ (R .bool) b b') :
    Couples S (addBits inner ty a b) (addBits inner ty a' b') (List.Forall₂ (R .bool)) := by
  refine .after_check fun _ _ => .after_check fun _ _ => ?_
  refine (hinner.constant .bool _ _).bind fun carry carry' hcarry => ?_
  exact couples_ripple hinner (forall₂_zip_zip ha hb) hcarry

theorem couples_assertBits (hinner : inner.Uniform S R) (ha : List.Forall₂ (R .bool) a a')
    (hb : List.Forall₂ (R .bool) b b') :
    Couples S (assertBits inner ty a b) (assertBits inner ty a' b') fun _ _ => True := by
  refine .after_check fun _ _ => .after_check fun _ _ => ?_
  exact Couples.forM (forall₂_zip_zip ha hb) fun _ _ hbits => hinner.assertEq .bool hbits.1 hbits.2

/-- Words over a uniform backend are uniform, bit by bit. -/
theorem words_uniform (hinner : inner.Uniform S R) (table : Table) :
    (words inner table).Uniform S fun _ => List.Forall₂ (R .bool) where
  constant ty d d' := .after_check fun _ _ => couples_constantBits hinner d d'
  binary op ty _ _ _ _ ha hb := by
    cases op with
    | and => exact .after_check fun _ _ => couples_bitwise (hinner.binary .and .bool) ha hb
    | or => exact .after_check fun _ _ => couples_bitwise (hinner.binary .or .bool) ha hb
    | xor => exact .after_check fun _ _ => couples_bitwise (hinner.binary .xor .bool) ha hb
    | wrappingAdd => exact .after_check fun _ _ => couples_addBits hinner ha hb
  not ty _ _ ha := .after_check fun _ _ => couples_complement (hinner.not .bool) ha
  shift op ty _ _ amount ha := by
    cases op with
    | shl => exact .after_check fun _ _ => couples_shiftUp amount ha hinner
    | shr => exact .after_check fun _ _ => couples_shiftDown amount ha hinner
    | rotl => exact .after_check fun _ _ => couples_rotateUp amount ha
    | rotr => exact .after_check fun _ _ => couples_rotateDown amount ha
  assertTrue ha :=
    .after_check fun _ _ => .after_check fun _ _ => .forM ha fun _ _ hbit => hinner.assertTrue hbit
  assertEq ty _ _ _ _ ha hb := .after_check fun _ _ => couples_assertBits hinner ha hb

/-- Two handles whose bits are related one by one. -/
def BitsRelated {β : Type} (P : β → β → Prop) (ty : ValueType) (x x' : Handle β ty) : Prop :=
  List.Forall₂ P (bits ty x) (bits ty x')

/-- Slicing over a uniform backend is uniform. -/
theorem backend_uniform (hinner : inner.Uniform S R) (table : Table) :
    (backend inner table).Uniform S (BitsRelated (R .bool)) := by
  have hwords := words_uniform hinner table
  have hsingle {act act' : Action σ (Inner .bool)} (hact : Couples S act act' (R .bool)) :
      Couples S act act' (BitsRelated (R .bool) .bool) := hact.imp fun _ _ h => .cons h .nil
  constructor
  case constant =>
    intro ty d d'
    cases ty with
    | bool =>
      refine .after_check fun _ _ => .after_check fun _ _ => ?_
      exact hsingle (hinner.constant .bool _ _)
    | u8 => exact hwords.constant .u8 d d'
    | u32 => exact hwords.constant .u32 d d'
  case binary =>
    intro op ty x x' y y' hx hy
    cases ty with
    | bool =>
      obtain ⟨hx', -⟩ := List.forall₂_cons.mp hx
      obtain ⟨hy', -⟩ := List.forall₂_cons.mp hy
      cases op with
      | and => exact hsingle (.after_check fun _ _ => hinner.binary .and .bool hx' hy')
      | or => exact hsingle (.after_check fun _ _ => hinner.binary .or .bool hx' hy')
      | xor => exact hsingle (.after_check fun _ _ => hinner.binary .xor .bool hx' hy')
      | wrappingAdd => exact .after_check fun _ _ => .stop
    | u8 =>
      have hword := hwords.binary op .u8 hx hy
      cases op <;> exact hword
    | u32 =>
      have hword := hwords.binary op .u32 hx hy
      cases op <;> exact hword
  case not =>
    intro ty x x' hx
    cases ty with
    | bool => exact hsingle (.after_check fun _ _ => hinner.not .bool (List.forall₂_cons.mp hx).1)
    | u8 => exact hwords.not .u8 hx
    | u32 => exact hwords.not .u32 hx
  case shift =>
    intro op ty x x' amount hx
    cases ty with
    | bool => cases op <;> exact .after_check fun _ _ => .after_check fun _ _ => .stop
    | u8 =>
      have hword := hwords.shift op .u8 amount hx
      cases op <;> exact hword
    | u32 =>
      have hword := hwords.shift op .u32 amount hx
      cases op <;> exact hword
  case assertTrue =>
    intro x x' hx
    exact .after_check fun _ _ => hinner.assertTrue (List.forall₂_cons.mp hx).1
  case assertEq =>
    intro ty x x' y y' hx hy
    cases ty with
    | bool =>
      obtain ⟨hx', -⟩ := List.forall₂_cons.mp hx
      obtain ⟨hy', -⟩ := List.forall₂_cons.mp hy
      exact .after_check fun _ _ => hinner.assertEq .bool hx' hy'
    | u8 => exact hwords.assertEq .u8 hx hy
    | u32 => exact hwords.assertEq .u32 hx hy

end WordCircuit.BitSliced
