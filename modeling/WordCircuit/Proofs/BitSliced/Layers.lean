import WordCircuit.Proofs.BitSliced.Interpretation
import WordCircuit.Proofs.ConstraintSystem.Connectives

namespace WordCircuit

attribute [ext] Backend

namespace BitSliced

variable {σ : Type} {Inner : ValueType → Type} {inner : Backend σ Inner}

/-- As far as slicing under the table makes use of truth values, `b` treats them exactly as the
    inner backend does. -/
structure SharesTruthValues (b : Backend σ (Handle (Inner .bool))) (inner : Backend σ Inner)
    (table : Table) : Prop where
  note : b.note = inner.note
  constant : ∀ v, b.constant .bool (.bool v) = inner.constant .bool (.bool v)
  and : b.and .bool = inner.and .bool
  or : b.or .bool = inner.or .bool
  xor : b.xor .bool = inner.xor .bool
  not : b.not .bool = inner.not .bool
  assertTrue : table.supports .bool .assertTrue = true → b.assertTrue = inner.assertTrue
  assertEq : ∀ {ty}, table.supports ty .assertEq = true → b.assertEq .bool = inner.assertEq .bool

namespace SharesTruthValues

variable {b : Backend σ (Handle (Inner .bool))} {table : Table}

theorem constantBits_eq (h : SharesTruthValues b inner table) :
    constantBits b = constantBits inner := by
  unfold constantBits
  simp only [h.constant]

theorem shiftUp_eq (h : SharesTruthValues b inner table) : shiftUp b = shiftUp inner := by
  unfold shiftUp
  rw [h.constant]

theorem shiftDown_eq (h : SharesTruthValues b inner table) : shiftDown b = shiftDown inner := by
  unfold shiftDown
  rw [h.constant]

theorem ripple_eq (h : SharesTruthValues b inner table) (carry : Inner .bool)
    (pairs : List (Inner .bool × Inner .bool)) :
    ripple b carry pairs = ripple inner carry pairs := by
  induction pairs generalizing carry with
  | nil => rfl
  | cons pair pairs ih => simp only [ripple, h.xor, h.and, h.or, ih]

theorem addBits_eq (h : SharesTruthValues b inner table) : addBits b = addBits inner := by
  unfold addBits
  simp only [h.constant, h.ripple_eq]

theorem assertBits_eq (h : SharesTruthValues b inner table) {ty : ValueType}
    (hsupports : table.supports ty .assertEq = true) : assertBits b ty = assertBits inner ty := by
  unfold assertBits
  rw [h.assertEq hsupports]

theorem words_eq (h : SharesTruthValues b inner table) : words b table = words inner table := by
  apply Backend.ext
  case name | table | integer? | rotl | rotr | checkedAdd => rfl
  case note => exact h.note
  case constant => simp only [words, h.constantBits_eq]
  case and => simp only [words, h.and]
  case or => simp only [words, h.or]
  case xor => simp only [words, h.xor]
  case not => simp only [words, h.not]
  case shl => simp only [words, h.shiftUp_eq]
  case shr => simp only [words, h.shiftDown_eq]
  case wrappingAdd => simp only [words, h.addBits_eq]
  -- Nothing is known of assertions that the table refuses, but those are never reached.
  case assertTrue =>
    funext a
    refine Action.liftM_bind_congr fun _ hrequire => ?_
    rw [h.assertTrue (Table.supports_of_require hrequire)]
  case assertEq =>
    funext ty x y
    refine Action.liftM_bind_congr fun _ hrequire => ?_
    rw [h.assertBits_eq (Table.supports_of_require hrequire)]

/-- Slicing looks at nothing but the truth values of the inner backend. -/
theorem backend_eq (h : SharesTruthValues b inner table) :
    backend b table = backend inner table := by
  apply Backend.ext
  case name | table | integer? => rfl
  case note => exact h.note
  case constant =>
    funext ty value
    cases ty with
    | bool =>
      -- The inner backend is handed the validated value, and that is a truth value.
      refine Action.liftM_bind_congr fun _ _ => Action.liftM_bind_congr fun v hv => ?_
      rw [ValueType.eq_datum_of_validate hv]
      exact h.constant _
    | u8 => simp only [backend, h.words_eq]
    | u32 => simp only [backend, h.words_eq]
  case and => simp only [backend, h.words_eq, h.and]
  case or => simp only [backend, h.words_eq, h.or]
  case xor => simp only [backend, h.words_eq, h.xor]
  case not => simp only [backend, h.words_eq, h.not]
  case shl | shr | rotl | rotr | wrappingAdd | checkedAdd => simp only [backend, h.words_eq]
  case assertTrue =>
    funext x
    refine Action.liftM_bind_congr fun _ hrequire => ?_
    rw [h.assertTrue (Table.supports_of_require hrequire)]
  case assertEq =>
    funext ty x y
    cases ty with
    | bool =>
      refine Action.liftM_bind_congr fun _ hrequire => ?_
      rw [h.assertEq (Table.supports_of_require hrequire)]
    | u8 => simp only [backend, h.words_eq]
    | u32 => simp only [backend, h.words_eq]

end SharesTruthValues

theorem supports_assertTrue (inner : Backend σ Inner) :
    (table inner).supports .bool .assertTrue = inner.table.supports .bool .assertTrue := by
  cases hinner : inner.table.supports .bool .assertTrue with
  | true => exact Table.supports_of_require (require_assertTrue hinner "")
  | false =>
    have htrue : inherited inner .assertTrue = .none := if_neg (Bool.eq_false_iff.mp hinner)
    rcases inherited_eq inner .assertEq with heq | heq <;>
      simp only [Table.supports, Table.offered?, table, htrue, heq] <;> decide

theorem supports_assertEq (inner : Backend σ Inner) (ty : ValueType) :
    (table inner).supports ty .assertEq = inner.table.supports .bool .assertEq := by
  cases hinner : inner.table.supports .bool .assertEq with
  | true => exact Table.supports_of_require (require_assertEq hinner ty "")
  | false =>
    have heq : inherited inner .assertEq = .none := if_neg (Bool.eq_false_iff.mp hinner)
    rcases inherited_eq inner .assertTrue with htrue | htrue <;> cases ty <;>
      simp only [Table.supports, Table.offered?, table, htrue, heq] <;> decide

/-- A second layer inherits the assertions that the first one inherited. -/
theorem table_backend (inner : Backend σ Inner) :
    table (backend inner (table inner)) = table inner := by
  have htrue : inherited (backend inner (table inner)) .assertTrue = inherited inner .assertTrue := by
    unfold inherited
    rw [← supports_assertTrue inner]
    rfl
  have heq : inherited (backend inner (table inner)) .assertEq = inherited inner .assertEq := by
    unfold inherited
    rw [← supports_assertEq inner .bool]
    rfl
  rw [table, htrue, heq]
  rfl

/-- The checks that a layer puts before the operations on truth values always pass for the layer
    above it, but for assertions that both of them refuse. -/
theorem backend_sharesTruthValues (inner : Backend σ Inner) :
    SharesTruthValues (backend inner (table inner)) inner (table inner) where
  note := rfl
  constant v :=
    (Action.liftM_bind_of_ok (require_connective inner .bool (by simp) "constant") _).trans
      (Action.liftM_bind_of_ok (x := ValueType.bool.validate (.bool v)) rfl _)
  and := funext₂ fun _ _ =>
    Action.liftM_bind_of_ok (require_connective inner .bool (by simp) "and") _
  or := funext₂ fun _ _ =>
    Action.liftM_bind_of_ok (require_connective inner .bool (by simp) "or") _
  xor := funext₂ fun _ _ =>
    Action.liftM_bind_of_ok (require_connective inner .bool (by simp) "xor") _
  not := funext fun _ =>
    Action.liftM_bind_of_ok (require_connective inner .bool (by simp) "not") _
  assertTrue hsupports := by
    rw [supports_assertTrue] at hsupports
    exact funext fun _ => Action.liftM_bind_of_ok (require_assertTrue hsupports "assert") _
  assertEq hsupports := by
    rw [supports_assertEq] at hsupports
    exact funext₂ fun _ _ => Action.liftM_bind_of_ok (require_assertEq hsupports .bool "assert_eq") _

theorem eq_backend_of_wrap {b : Backend σ (Handle (Inner .bool))} (h : wrap inner = .ok b) :
    b = backend inner (table inner) := by
  obtain ⟨_, -, hb⟩ := bind_eq_ok_iff.mp h
  exact (Except.ok.inj hb).symm

theorem supports_boolean (inner : Backend σ Inner) :
    (table inner).supports .bool .boolean = true := by
  apply Table.supports_of_offered rfl
  rcases inherited_eq inner .assertTrue with htrue | htrue <;>
    rcases inherited_eq inner .assertEq with heq | heq <;> rw [htrue, heq] <;> decide

/-- A sliced backend can be sliced once more, and that changes nothing. -/
theorem wrap_of_wrap {b : Backend σ (Handle (Inner .bool))} (h : wrap inner = .ok b) :
    wrap b = .ok b := by
  obtain rfl := eq_backend_of_wrap h
  have hbackend : backend (backend inner (table inner)) (table (backend inner (table inner))) =
      backend inner (table inner) :=
    (congrArg (backend _) (table_backend inner)).trans (backend_sharesTruthValues inner).backend_eq
  have hwrap := wrap_of_supports (backend inner (table inner)) (supports_boolean inner)
  exact hwrap.trans (congrArg Except.ok hbackend)

/-- One layer of slicing and so many further layers around it. -/
def layers (inner : Backend σ Inner) : Nat → Except Fault (Backend σ (Handle (Inner .bool)))
  | 0 => wrap inner
  | further + 1 => layers inner further >>= fun b => (wrap b :)

/-- However many layers are put around the first one, they accept the same inner backends, publish
    the same table, and give the same outcome to each of any number of requests, with the same
    effect on the state of the inner backend. -/
theorem further_layers_are_transparent (inner : Backend σ Inner) (further : Nat) :
    layers inner further = wrap inner ∧
      ∀ {single : Backend σ (Handle (Inner .bool))}, wrap inner = .ok single →
        ∃ nested, layers inner further = .ok nested ∧ nested.name = single.name ∧
          nested.table = single.table ∧
          ∀ s requests, nested.transcript s requests = single.transcript s requests := by
  have hlayers : layers inner further = wrap inner := by
    induction further with
    | zero => rfl
    | succ further ih =>
      rw [layers, ih]
      cases hwrap : wrap inner with
      | ok b => exact wrap_of_wrap hwrap
      | error fault => rfl
  refine ⟨hlayers, fun {single} hsingle => ⟨single, hlayers.trans hsingle, rfl, rfl, ?_⟩⟩
  exact fun _ _ => rfl

/-- The constraint system over the field with seven elements. -/
abbrev overSeven : Backend ConstraintSystem fun _ => Combination :=
  ConstraintSystem.backend (ConstraintSystem.table .seven)

/-- A word without bits fails the second request, and the third one rotates a truth value. -/
def mixedRequests : List (Request (Handle Combination)) :=
  [.constant .u8 (.int 5), .binary .and .u8 [] [],
    .shift .rotl .bool (.zero (.exact .seven)) (.int 1), .supports .bool .assertTrue]

theorem three_layers_overSeven :
    wrap overSeven = .ok (backend overSeven (table overSeven)) ∧
      ∃ nested, layers overSeven 2 = .ok nested ∧
        nested.transcript (.empty .seven .unlimited) mixedRequests =
          (backend overSeven (table overSeven)).transcript (.empty .seven .unlimited) mixedRequests := by
  have hwrap := wrap_of_supports overSeven (by decide)
  obtain ⟨nested, hnested, -, -, htranscript⟩ := (further_layers_are_transparent overSeven 2).2 hwrap
  exact ⟨hwrap, nested, hnested, htranscript _ _⟩

end BitSliced

end WordCircuit
