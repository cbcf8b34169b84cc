import WordCircuit.BitSliced
import WordCircuit.ConstraintSystem.Untyped
import WordCircuit.Direct
import WordCircuit.Proofs.Action
import WordCircuit.Proofs.Capability
import WordCircuit.Proofs.Field.Residues
import WordCircuit.Proofs.Operation

namespace WordCircuit

namespace Table

variable {σ α : Type} {table : Table} {ty : ValueType} {wanted : Capability}

/-- An action that starts with a look at the table does nothing if the table lacks what is
    wanted. -/
theorem refuses_of_unsupported (hmissing : table.supports ty wanted = false) (backend operation : String)
    (next : Unit → Action σ α) (s : σ) :
    (liftM (table.require backend ty wanted operation) >>= next).Refuses s .type := by
  obtain ⟨fault, hrequire, hkind⟩ := exists_require_error hmissing backend operation
  exact hkind ▸ (Action.refuses_of_error hrequire s).bind next

theorem refuses_of_unrepresented (hmissing : table.represents ty = false) (backend operation : String)
    (next : Unit → Action σ α) (s : σ) :
    (liftM (table.require backend ty wanted operation) >>= next).Refuses s .type := by
  have hrequire : table.require backend ty wanted operation = .error (.unrepresented backend ty) := by
    rw [require, hmissing]
    rfl
  exact (Action.refuses_of_error hrequire s).bind next

end Table

/-- The operations of the backend look at its table first. What the table does not offer on a type
    is refused as a misuse of the type and changes nothing, whatever the operands are. -/
structure Backend.GatesOperations {σ : Type} {Handle : ValueType → Type} (b : Backend σ Handle) :
    Prop where
  binary : ∀ (op : BinaryOp) (ty : ValueType) (x y : Handle ty) (s : σ),
    b.table.supports ty op.capability = false → (op.run b ty x y).Refuses s .type
  not : ∀ (ty : ValueType) (x : Handle ty) (s : σ),
    b.table.supports ty .not = false → (b.not ty x).Refuses s .type
  shift : ∀ (op : ShiftOp) (ty : ValueType) (x : Handle ty) (amount : Datum) (s : σ),
    b.table.supports ty op.capability = false → (op.run b ty x amount).Refuses s .type
  checkedAdd : ∀ (ty : ValueType) (x y : Handle ty) (s : σ),
    b.table.supports ty .add = false → (b.checkedAdd ty x y).Refuses s .type

/-- Constants and assertions look at the table as well. -/
structure Backend.Gates {σ : Type} {Handle : ValueType → Type} (b : Backend σ Handle) : Prop
    extends b.GatesOperations where
  constant : ∀ (ty : ValueType) (d : Datum) (s : σ),
    b.table.represents ty = false → (b.constant ty d).Refuses s .type
  assertTrue : ∀ (x : Handle .bool) (s : σ),
    b.table.supports .bool .assertTrue = false → (b.assertTrue x).Refuses s .type
  assertEq : ∀ (ty : ValueType) (x y : Handle ty) (s : σ),
    b.table.supports ty .assertEq = false → (b.assertEq ty x y).Refuses s .type

open Table (refuses_of_unsupported refuses_of_unrepresented)

namespace ConstraintSystem

theorem backend_gates (table : Table) : (backend table).Gates where
  binary op ty x y s hmissing := by
    cases op with
    | and => exact refuses_of_unsupported hmissing _ _ _ s
    | or => exact refuses_of_unsupported hmissing _ _ _ s
    | xor => exact refuses_of_unsupported hmissing _ _ _ s
    | wrappingAdd => exact refuses_of_unsupported hmissing _ _ _ s
  not ty x s hmissing := refuses_of_unsupported hmissing _ _ _ s
  shift op ty x amount s hmissing := by
    cases op <;> exact refuses_of_unsupported hmissing _ _ _ s
  checkedAdd ty x y s hmissing := refuses_of_unsupported hmissing _ _ _ s
  constant ty d s hmissing := refuses_of_unrepresented hmissing _ _ _ s
  assertTrue x s hmissing := refuses_of_unsupported hmissing _ _ _ s
  assertEq ty x y s hmissing := refuses_of_unsupported hmissing _ _ _ s

theorem untyped_gates (table : Table) : (untyped table).Gates where
  binary op ty x y s hmissing := by
    cases op with
    | and => exact Action.Refuses.map (refuses_of_unsupported hmissing _ _ _ s) _
    | or => exact refuses_of_unsupported hmissing _ _ _ s
    | xor => exact refuses_of_unsupported hmissing _ _ _ s
    | wrappingAdd => exact refuses_of_unsupported hmissing _ _ _ s
  not ty x s hmissing := Action.Refuses.map (refuses_of_unsupported hmissing _ _ _ s) _
  shift op ty x amount s hmissing := by
    cases op <;> exact refuses_of_unsupported hmissing _ _ _ s
  checkedAdd ty x y s hmissing := refuses_of_unsupported hmissing _ _ _ s
  constant ty d s hmissing := Action.Refuses.map (refuses_of_unrepresented hmissing _ _ _ s) _
  assertTrue x s hmissing := refuses_of_unsupported hmissing _ _ _ s
  assertEq ty x y s hmissing := refuses_of_unsupported hmissing _ _ _ s

end ConstraintSystem

namespace BitSliced

variable {σ : Type} {Inner : ValueType → Type}

theorem words_gates (inner : Backend σ Inner) (table : Table) : (words inner table).Gates where
  binary op ty x y s hmissing := by
    cases op <;> exact refuses_of_unsupported hmissing _ _ _ s
  not ty x s hmissing := refuses_of_unsupported hmissing _ _ _ s
  shift op ty x amount s hmissing := by
    cases op <;> exact refuses_of_unsupported hmissing _ _ _ s
  checkedAdd ty x y s hmissing := refuses_of_unsupported hmissing _ _ _ s
  constant ty d s hmissing := refuses_of_unrepresented hmissing _ _ _ s
  assertTrue x s hmissing := refuses_of_unsupported hmissing _ _ _ s
  assertEq ty x y s hmissing := refuses_of_unsupported hmissing _ _ _ s

theorem backend_gates (inner : Backend σ Inner) (table : Table) : (backend inner table).Gates where
  binary op ty x y s hmissing := by
    cases ty <;> cases op <;> exact refuses_of_unsupported hmissing _ _ _ s
  not ty x s hmissing := by
    cases ty <;> exact refuses_of_unsupported hmissing _ _ _ s
  shift op ty x amount s hmissing := by
    cases ty <;> cases op <;> exact refuses_of_unsupported hmissing _ _ _ s
  checkedAdd ty x y s hmissing := refuses_of_unsupported hmissing _ _ _ s
  constant ty d s hmissing := by
    cases ty <;> exact refuses_of_unrepresented hmissing _ _ _ s
  assertTrue x s hmissing := refuses_of_unsupported hmissing _ _ _ s
  assertEq ty x y s hmissing := by
    cases ty <;> exact refuses_of_unsupported hmissing _ _ _ s

end BitSliced

namespace Direct

theorem backend_gatesOperations (table : Table) : (backend table).GatesOperations where
  binary op ty x y s hmissing := by
    cases op <;> exact refuses_of_unsupported hmissing _ _ _ s
  not ty x s hmissing := refuses_of_unsupported hmissing _ _ _ s
  shift op ty x amount s hmissing := by
    cases op <;> exact refuses_of_unsupported hmissing _ _ _ s
  checkedAdd ty x y s hmissing := refuses_of_unsupported hmissing _ _ _ s

end Direct

/-- Under every table a constraint system and words over any backend refuse each operation that
    the table does not offer, before they look at operands or touch the state. Direct evaluation
    refuses operations in this way, but its constants and its assertions are the same under all
    tables. -/
theorem undeclared_operations_refused (table : Table) :
    (ConstraintSystem.backend table).Gates ∧ (ConstraintSystem.untyped table).Gates ∧
      (∀ {σ : Type} {Inner : ValueType → Type} (inner : Backend σ Inner),
        (BitSliced.backend inner table).Gates ∧ (BitSliced.words inner table).Gates) ∧
      (Direct.backend table).GatesOperations ∧
      ∀ other : Table, (Direct.backend table).constant = (Direct.backend other).constant ∧
        (Direct.backend table).assertTrue = (Direct.backend other).assertTrue ∧
        (Direct.backend table).assertEq = (Direct.backend other).assertEq := by
  refine ⟨ConstraintSystem.backend_gates table, ConstraintSystem.untyped_gates table, ?_,
    Direct.backend_gatesOperations table, fun other => ⟨rfl, rfl, rfl⟩⟩
  intro σ Inner inner
  exact ⟨BitSliced.backend_gates inner table, BitSliced.words_gates inner table⟩

/-- A table with conjunction of bytes and nothing else. -/
def conjunctionTable : Table :=
  .ofList [(.u8, .and)]

/-- Direct evaluation under this table still makes truth values, asserts them and compares bytes. -/
theorem direct_ignores_conjunctionTable :
    conjunctionTable.represents .bool = false ∧
      ((Direct.backend conjunctionTable).constant .bool (.bool true)).exec .empty =
        (.ok (.bool true), .empty) ∧
      conjunctionTable.supports .bool .assertTrue = false ∧
      ((Direct.backend conjunctionTable).assertTrue (.bool true)).exec .empty = (.ok (), .empty) ∧
      conjunctionTable.supports .u8 .assertEq = false ∧
      ((Direct.backend conjunctionTable).assertEq .u8 (.int 5) (.int 5)).exec .empty = (.ok (), .empty) :=
  ⟨rfl, rfl, rfl, rfl, rfl, rfl⟩

/-- Without negation there is no disjunction of bytes, and none of their bits is even looked at. -/
theorem disjunction_refused_by_conjunctionTable :
    conjunctionTable.supports .u8 .or = false ∧
      ((BitSliced.backend (ConstraintSystem.backend conjunctionTable) conjunctionTable).or .u8 [] []).Refuses
        (.empty .seven .unlimited) .type :=
  ⟨rfl, ((undeclared_operations_refused conjunctionTable).2.2.1 _).1.binary .or .u8 [] [] _ rfl⟩

end WordCircuit
