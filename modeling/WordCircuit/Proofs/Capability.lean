import WordCircuit.Capability

namespace WordCircuit.Table

/-- A table supports what it offers on a type, disjunction included where it follows
    from conjunction and negation. -/
theorem supports_of_offered {table : Table} {ty : ValueType} {offered wanted : Capability}
    (hoffered : table.offered? ty = some offered)
    (hwanted : offered.closure.includes wanted = true) : table.supports ty wanted = true := by
  rw [supports, hoffered]
  exact hwanted

/-- The empty set is available on every type. -/
theorem supports_none (table : Table) (ty : ValueType) : table.supports ty .none = true :=
  beq_iff_eq.mpr BitVec.and_zero

theorem require_of_represents {table : Table} {ty : ValueType} {wanted : Capability}
    (hrepresents : table.represents ty = true) (hsupports : table.supports ty wanted = true)
    (backend operation : String) : table.require backend ty wanted operation = .ok () := by
  rw [require, hrepresents, hsupports]
  rfl

theorem require_of_offered {table : Table} {ty : ValueType} {offered wanted : Capability}
    (hoffered : table.offered? ty = some offered) (hwanted : offered.closure.includes wanted = true)
    (backend operation : String) : table.require backend ty wanted operation = .ok () := by
  have hrepresents : table.represents ty = true := by
    rw [represents, hoffered]
    rfl
  exact require_of_represents hrepresents (supports_of_offered hoffered hwanted) backend operation

/-- Something that is not nothing is supported on represented types only. -/
theorem require_of_supports {table : Table} {ty : ValueType} {wanted : Capability}
    (hsupports : table.supports ty wanted = true) (hwanted : wanted ≠ .none)
    (backend operation : String) : table.require backend ty wanted operation = .ok () := by
  unfold supports at hsupports
  cases hoffered : table.offered? ty with
  | some offered =>
    rw [hoffered] at hsupports
    exact require_of_offered hoffered hsupports backend operation
  | none =>
    rw [hoffered, Option.getD_none] at hsupports
    have hclosure : Capability.none.closure.flags = 0#10 := by decide
    unfold Capability.includes at hsupports
    rw [hclosure, BitVec.zero_and, beq_iff_eq] at hsupports
    exact absurd (congrArg Capability.mk hsupports.symm) hwanted

/-- A backend refuses what its table lacks on a type, as a misuse of the type. -/
theorem exists_require_error {table : Table} {ty : ValueType} {wanted : Capability}
    (hmissing : table.supports ty wanted = false) (backend operation : String) :
    ∃ fault, table.require backend ty wanted operation = .error fault ∧ fault.kind = .type := by
  unfold require
  by_cases hrepresents : table.represents ty = true
  · rw [hrepresents, hmissing]
    exact ⟨.unsupported backend _ ty, rfl, rfl⟩
  · rw [Bool.eq_false_iff.mpr hrepresents]
    exact ⟨.unrepresented backend ty, rfl, rfl⟩

theorem supports_of_require {table : Table} {ty : ValueType} {wanted : Capability}
    {backend operation : String} (h : table.require backend ty wanted operation = .ok ()) :
    table.supports ty wanted = true := by
  cases hsupports : table.supports ty wanted with
  | true => rfl
  | false =>
    obtain ⟨fault, hfault, -⟩ := exists_require_error hsupports backend operation
    cases h.symm.trans hfault

end WordCircuit.Table
