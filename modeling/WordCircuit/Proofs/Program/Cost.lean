import WordCircuit.Proofs.BitSliced.Cost
import WordCircuit.Proofs.ConstraintSystem.Cost
import WordCircuit.Proofs.Program.Word
import WordCircuit.Proofs.Script

namespace WordCircuit

namespace Operation

variable {Γ : List ValueType} {ty : ValueType}

/-- What a table offers if it offers the operation. Constants need the type alone. -/
def capability : Operation Γ ty → Capability
  | constant _ => .none
  | binary op _ _ => op.capability
  | not _ => .not
  | shift op _ _ => op.capability

/-- The table offers the operation, and constants and amounts are in range. -/
structure Offered (table : Table) (op : Operation Γ ty) : Prop where
  accepted : op.Accepted
  represents : table.represents ty = true
  supports : table.supports ty op.capability = true

/-- The gates of an operation, besides those that compact its exclusive ors. -/
def gates (p : Modulus) : Operation Γ ty → Nat
  | constant _ => 0
  | binary op _ _ => op.gates p ty
  | not _ => 0
  | shift _ _ _ => 0

/-- How many exclusive ors of truth values the operation asks for. -/
def exclusions : Operation Γ ty → Nat
  | constant _ => 0
  | binary op _ _ => op.exclusions ty
  | not _ => 0
  | shift _ _ _ => 0

end Operation

namespace Layer

/-- The layer over a system that keeps a ledger of the exclusive ors of truth values. -/
def noted (p : Modulus) : (layer : Layer) → Backend Ledger layer.Handle
  | arithmetic => Ledger.backend (ConstraintSystem.table p)
  | sliced =>
    BitSliced.backend (Ledger.backend (ConstraintSystem.table p))
      (BitSliced.table (Ledger.backend (ConstraintSystem.table p)))

/-- The handle is over the field of the system and over variables that it has declared. -/
def Declares (s : ConstraintSystem) : (layer : Layer) → (ty : ValueType) → layer.Handle ty → Prop
  | arithmetic, _, x => s.Declares x
  | sliced, _, x => s.DeclaresWord x

end Layer

namespace ConstraintSystem

variable {s : ConstraintSystem} {ty : ValueType}

theorem DeclaresWord.wordFits {x : BitSliced.Handle Combination ty} (hx : s.DeclaresWord x) :
    @BitSliced.WordFits (fun _ => Combination) (DeclaresOver s.modulus) ty s (BitSliced.bits ty x) :=
  ⟨hx.length_eq, fun bit hbit => ⟨rfl, hx.declares bit hbit⟩⟩

theorem declaresWord_of_wordFits {p : Modulus} {x : BitSliced.Handle Combination ty}
    (hx : @BitSliced.WordFits (fun _ => Combination) (DeclaresOver p) ty s (BitSliced.bits ty x)) :
    s.DeclaresWord x :=
  declaresWord_of_declares hx.length_eq fun bit hbit => (hx.fits bit hbit).2

/-- All that a constraint system by itself can do with words is to compare bytes. -/
theorem eq_bool_of_supports {p : Modulus} {wanted : Capability}
    (hwanted : wanted ∈ [.and, .or, .xor, .not, .shift, .rotate, .wrappingAdd])
    (hsupports : (table p).supports ty wanted = true) : ty = .bool := by
  by_contra hword
  have hoffered : ((table p).offered? ty).getD .none = .none ∨
      ((table p).offered? ty).getD .none = .assertEq := by
    cases ty with
    | bool => exact absurd rfl hword
    | u8 =>
      by_cases hfits : ValueType.u8.width ≤ p.capacityBits
      · exact .inr (by simp [table, Table.offered?, hfits])
      · exact .inl (by simp [table, Table.offered?, hfits])
    | u32 => exact .inl rfl
  unfold Table.supports at hsupports
  simp only [List.mem_cons, List.not_mem_nil, or_false] at hwanted
  rcases hoffered with hoffered | hoffered <;> rw [hoffered] at hsupports <;>
    rcases hwanted with rfl | rfl | rfl | rfl | rfl | rfl | rfl <;> exact absurd hsupports (by decide)

end ConstraintSystem

open ConstraintSystem (Costs)

section

variable {s : ConstraintSystem} {Γ : List ValueType} {ty : ValueType}

theorem costs_arithmetic {env : Env Layer.arithmetic.Handle Γ}
    (henv : ∀ ty r, Layer.arithmetic.Declares s ty (env ty r)) {op : Operation Γ ty}
    (hoffered : op.Offered (ConstraintSystem.table s.modulus)) :
    s.Costs (op.run (Layer.arithmetic.backend s.modulus) env)
      (op.run (Layer.arithmetic.noted s.modulus) env) (op.gates s.modulus) op.exclusions
      (Layer.arithmetic.Declares · ty) := by
  obtain ⟨haccepted, hrepresents, hsupports⟩ := hoffered
  cases op with
  | constant d =>
    obtain ⟨canonical, hd⟩ := haccepted
    exact ConstraintSystem.costs_constant (Table.require_of_represents hrepresents hsupports _ _) hd
  | binary op x y =>
    obtain rfl : ty = .bool := by
      refine ConstraintSystem.eq_bool_of_supports ?_ hsupports
      cases op <;> simp [Operation.capability, BinaryOp.capability]
    cases op with
    | and => exact ConstraintSystem.costs_and _ (henv _ x) (henv _ y)
    | or => exact ConstraintSystem.costs_or _ (henv _ x) (henv _ y)
    | xor => exact ConstraintSystem.costs_xor (henv _ x) (henv _ y)
    | wrappingAdd => cases haccepted
  | not x =>
    obtain rfl : ty = .bool := ConstraintSystem.eq_bool_of_supports (by simp [Operation.capability]) hsupports
    exact ConstraintSystem.costs_not _ (henv _ x)
  | shift op x amount =>
    obtain rfl : ty = .bool := by
      refine ConstraintSystem.eq_bool_of_supports ?_ hsupports
      cases op <;> simp [Operation.capability, ShiftOp.capability]
    cases haccepted.1

theorem costs_sliced {env : Env Layer.sliced.Handle Γ}
    (henv : ∀ ty r, Layer.sliced.Declares s ty (env ty r)) {op : Operation Γ ty}
    (hoffered : op.Offered (Layer.sliced.backend s.modulus).table) :
    s.Costs (op.run (Layer.sliced.backend s.modulus) env) (op.run (Layer.sliced.noted s.modulus) env)
      (op.gates s.modulus) op.exclusions (Layer.sliced.Declares · ty) := by
  have hinner := ConstraintSystem.backend_priced s.modulus
  have hword (x : Ref Γ ty) := ConstraintSystem.DeclaresWord.wordFits (henv ty x)
  obtain ⟨haccepted, hrepresents, hsupports⟩ := hoffered
  refine Costs.imp ?_ fun t out _ hout => ConstraintSystem.declaresWord_of_wordFits (p := s.modulus) hout
  cases op with
  | constant d =>
    obtain ⟨canonical, hd⟩ := haccepted
    exact BitSliced.costs_backend_constant hinner hrepresents rfl hsupports hd
  | binary op x y =>
    refine BitSliced.costs_backend_binary hinner hrepresents op rfl hsupports ?_ (hword x) (hword y)
    rintro rfl
    exact haccepted
  | not x => exact BitSliced.costs_backend_not hinner hrepresents hsupports (hword x)
  | shift op x amount =>
    obtain ⟨hisWord, k, hamount⟩ := haccepted
    exact BitSliced.costs_backend_shift hinner hrepresents op rfl hsupports hisWord (hword x) hamount

/-- The circuit cost of every operation, on every system and whatever its operands are. Constants,
    negations, shifts and rotations pose nothing; a conjunction or a disjunction poses a gate for each
    bit, an exclusive or a gate for each bit unless one plus one is zero, and an addition of `w` bits
    `5 * w - 3` gates, or `3 * (w - 1)` where one plus one is zero. To these comes one gate for each
    exclusive or of truth values that has more terms than the system keeps. Each gate is one variable
    and one constraint. -/
theorem operation_cost_exact (layer : Layer) (s : ConstraintSystem) {Γ : List ValueType} {ty : ValueType}
    {env : Env layer.Handle Γ} (henv : ∀ ty r, layer.Declares s ty (env ty r)) (op : Operation Γ ty)
    (hoffered : op.Offered (layer.backend s.modulus).table) :
    ∃ out t exclusions, (op.run (layer.backend s.modulus) env).exec s = (.ok out, t) ∧
      (op.run (layer.noted s.modulus) env).exec ⟨s, []⟩ = (.ok out, ⟨t, exclusions⟩) ∧
      exclusions.length = op.exclusions ∧
      (∀ e ∈ exclusions, ∃ x, e.uncompacted = .ok x ∧
        (e.isCompacted = true ↔ s.maxTerms.allows x.terms.size = false)) ∧
      t.numVars = s.numVars + op.gates s.modulus + exclusions.countP Exclusion.isCompacted ∧
      t.constraints.size =
        s.constraints.size + op.gates s.modulus + exclusions.countP Exclusion.isCompacted ∧
      exclusions.countP Exclusion.isCompacted ≤ op.exclusions ∧
      (s.maxTerms = .unlimited → exclusions.countP Exclusion.isCompacted = 0) ∧
      layer.Declares t ty out := by
  have hcosts : s.Costs (op.run (layer.backend s.modulus) env) (op.run (layer.noted s.modulus) env)
      (op.gates s.modulus) op.exclusions (layer.Declares · ty) := by
    cases layer with
    | arithmetic => exact costs_arithmetic henv hoffered
    | sliced => exact costs_sliced henv hoffered
  obtain ⟨out, t, exclusions, hexec, hnoted, hlength, hspends, hout⟩ := hcosts
  refine ⟨out, t, exclusions, hexec, hnoted [], hlength, fun e he => ?_, hspends.numVars_eq,
    hspends.size_eq, ?_, hspends.countP_of_unlimited, hout⟩
  · obtain ⟨x, hx, hcompacted⟩ := hspends.decided e he
    refine ⟨x, hx, ?_⟩
    rw [hcompacted, Bool.not_eq_true']
  · rw [← hlength]
    exact List.countP_le_length

end

theorem Layer.declares_pair {layer : Layer} {s : ConstraintSystem} {ty : ValueType}
    {x y : layer.Handle ty} (hx : layer.Declares s ty x) (hy : layer.Declares s ty y) :
    ∀ other r, layer.Declares s other (Env.pair x y other r)
  | _, .here => hx
  | _, .there .here => hy

def twoFives : Env Layer.sliced.Handle [.u8, .u8] :=
  @Env.pair Layer.sliced.Handle .u8 knownFive knownFive

def doubling : Operation [.u8, .u8] .u8 :=
  .binary .wrappingAdd .here (.there .here)

/-- Doubling five over the field with seven elements takes 37 gates, and the sum in each of the eight
    positions takes one more if only one term is kept. -/
theorem doubling_five_cost :
    ∃ out t exclusions,
      (doubling.run (Layer.sliced.backend .seven) twoFives).exec (.empty .seven (.atMost 1)) =
        (.ok out, t) ∧
      (doubling.run (Layer.sliced.noted .seven) twoFives).exec ⟨.empty .seven (.atMost 1), []⟩ =
        (.ok out, ⟨t, exclusions⟩) ∧
      exclusions.length = 16 ∧ exclusions.countP Exclusion.isCompacted = 8 ∧
      t.numVars = 37 + 8 ∧ t.constraints.size = 37 + 8 := by
  have hfive : Layer.sliced.Declares (.empty .seven (.atMost 1)) .u8 knownFive :=
    ConstraintSystem.declaresWord_of_declares rfl (declares_knownBits _ _)
  obtain ⟨out, t, exclusions, hexec, hnoted, hlength, -, hnumVars, hsize, -⟩ :=
    operation_cost_exact .sliced (.empty .seven (.atMost 1)) (Layer.declares_pair hfive hfive) doubling
      ⟨rfl, rfl, rfl⟩
  have hcount : exclusions.countP Exclusion.isCompacted = 8 := by
    have hledger := congrArg (fun result => result.2.exclusions.countP Exclusion.isCompacted) hnoted
    refine hledger.symm.trans ?_
    decide +kernel
  rw [hcount] at hnumVars hsize
  exact ⟨out, t, exclusions, hexec, hnoted, hlength, hcount, hnumVars, hsize⟩

end WordCircuit
