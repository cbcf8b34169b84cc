import WordCircuit.Proofs.ConstraintSystem.Connectives
import WordCircuit.Proofs.ConstraintSystem.Ledger

namespace WordCircuit.ConstraintSystem

variable {s t : ConstraintSystem} {x y : Combination}

theorem Declares.withBound (hx : s.Declares x) (bound : TermBound) : (s.withBound bound).Declares x :=
  hx.mono rfl le_rfl

/-- The system after the conjunction that an exclusive or needs unless one plus one is zero. -/
def afterProduct (s : ConstraintSystem) (x y : Combination) : ConstraintSystem :=
  if s.modulus.isCharacteristicTwo then s else s.gate x y

theorem withBound_afterProduct (s : ConstraintSystem) (x y : Combination) :
    (s.afterProduct x y).withBound s.maxTerms = s.afterProduct x y := by
  unfold afterProduct
  split <;> rfl

theorem afterProduct_numVars (s : ConstraintSystem) (x y : Combination) :
    (s.afterProduct x y).numVars = s.numVars + s.modulus.exclusiveGates := by
  unfold afterProduct Modulus.exclusiveGates
  split <;> rfl

theorem extends_afterProduct (hx : s.Declares x) (hy : s.Declares y) : s.Extends (s.afterProduct x y) := by
  unfold afterProduct
  split
  · exact .refl
  · exact Extends.refl.gate hx hy

/-- An exclusive or compacts one combination, which is the same under every bound. -/
theorem exists_exec_xor (hx : s.Declares x) (hy : s.Declares y) :
    ∃ z, (s.afterProduct x y).Declares z ∧ ∀ bound,
      (xor (table s.modulus) .bool x y).exec (s.withBound bound) =
        (compact z).exec ((s.afterProduct x y).withBound bound) := by
  by_cases hchar : s.modulus.isCharacteristicTwo
  · obtain ⟨sum, hsum, hcombines⟩ := Combination.exists_add hx.over_field hy.over_field
    rw [afterProduct, if_pos hchar]
    refine ⟨sum, hx.combines hy hcombines, fun bound => ?_⟩
    rw [xor, Action.exec_liftM_bind_of_ok (require_bool _ (by simp) _),
      Action.exec_bind_of_ok (Action.exec_get _),
      Action.exec_liftM_bind_of_ok (hx.withBound bound).checkHandle,
      Action.exec_liftM_bind_of_ok (hy.withBound bound).checkHandle, withBound_modulus, if_pos hchar,
      Action.exec_liftM_bind_of_ok hsum]
  · rw [afterProduct, if_neg hchar]
    obtain ⟨sum, twice, z, hsum, htwice, hz, hdeclared⟩ :=
      (hx.gate x y).exists_exclusive (hy.gate x y) (s.declares_gate_nextVar x y)
    refine ⟨z, hdeclared, fun bound => ?_⟩
    rw [xor, Action.exec_liftM_bind_of_ok (require_bool _ (by simp) _),
      Action.exec_bind_of_ok (Action.exec_get _),
      Action.exec_liftM_bind_of_ok (hx.withBound bound).checkHandle,
      Action.exec_liftM_bind_of_ok (hy.withBound bound).checkHandle, withBound_modulus, if_neg hchar,
      Action.exec_bind_of_ok
        (exec_and (require_bool _ (by simp) _) (hx.withBound bound) (hy.withBound bound)),
      withBound_nextVar, Action.exec_liftM_bind_of_ok hsum, Action.exec_liftM_bind_of_ok htwice,
      Action.exec_liftM_bind_of_ok hz]
    rfl

/-- A handle of a system over the modulus. -/
def DeclaresOver (p : Modulus) (s : ConstraintSystem) (x : Combination) : Prop :=
  s.modulus = p ∧ s.Declares x

section Gates

variable {p : Modulus}

theorem DeclaresOver.of_extends (hx : DeclaresOver p s x) (h : s.Extends t) : DeclaresOver p t x :=
  ⟨h.precedes.modulus_eq.trans hx.1, h.precedes.declares hx.2⟩

theorem costs_constant {table : Table} {ty : ValueType} {d canonical : Datum}
    (hrequire : table.require name ty .none "constant" = .ok ()) (hd : ty.validate d = .ok canonical) :
    s.Costs (constant table ty d) ((Ledger.backend table).constant ty d) 0 0 Declares := by
  refine .lift (exec_constant hrequire hd) (.refl s) (declares_ofElement ?_)
  rw [order, Element.ofNumber_int]
  exact Element.over_ofClass _ _

theorem costs_and (p : Modulus) (hx : s.Declares x) (hy : s.Declares y) :
    s.Costs (and (table p) .bool x y) ((Ledger.backend (table p)).and .bool x y) 1 0 Declares :=
  .lift (exec_and (require_bool p (by simp) _) hx hy) (.gate hx hy) (s.declares_gate_nextVar x y)

theorem costs_not (p : Modulus) (hx : s.Declares x) :
    s.Costs (not (table p) .bool x) ((Ledger.backend (table p)).not .bool x) 0 0 Declares := by
  obtain ⟨z, hexec, hcombines⟩ := exists_exec_not (require_bool p (by simp) _) hx.over_field
  exact .lift hexec (.refl s) (s.declares_one.combines hx hcombines)

/-- By way of negations a disjunction costs no more than the conjunction in it. -/
theorem costs_or (p : Modulus) (hx : s.Declares x) (hy : s.Declares y) :
    s.Costs ((backend (table p)).or .bool x y) ((Ledger.backend (table p)).or .bool x y) 1 0 Declares := by
  refine .check (require_bool p (by simp) _) ?_
  change s.Costs _ _ (0 + (0 + (1 + 0))) (0 + (0 + (0 + 0))) Declares
  refine (costs_not p hx).bind fun t₁ notX h₁ hnotX => ?_
  refine (costs_not p (h₁.precedes.declares hy)).bind fun t₂ notY h₂ hnotY => ?_
  refine (costs_and p (h₂.precedes.declares hnotX) hnotY).bind fun t₃ neither h₃ hneither => ?_
  exact costs_not p hneither

/-- An exclusive or costs its product, and one gate more if it is compacted. -/
theorem costs_xor (hx : s.Declares x) (hy : s.Declares y) :
    s.Costs (xor (table s.modulus) .bool x y) ((Ledger.backend (table s.modulus)).xor .bool x y)
      s.modulus.exclusiveGates 1 Declares := by
  obtain ⟨z, hz, hexec⟩ := exists_exec_xor hx hy
  obtain ⟨v, t, hcompact, hgrows, hv, hnumVars⟩ := exists_exec_compact hz
  have hxor : (xor (table s.modulus) .bool x y).exec s = (.ok v, t) := by
    rw [← hcompact, ← s.withBound_afterProduct]
    exact hexec s.maxTerms
  have huncompacted : Exclusion.uncompacted ⟨s, x, y⟩ = .ok z := by
    rw [Exclusion.uncompacted, hexec .unlimited, exec_compact_of_allows rfl]
  have hcompacted := Exclusion.isCompacted_of_uncompacted huncompacted
  have hbefore := extends_afterProduct hx hy
  refine ⟨v, t, [⟨s, x, y⟩], hxor, fun earlier => ?_, rfl, ⟨hbefore.trans hgrows, ?_, ?_⟩, hv⟩
  · exact (Action.exec_bind_of_ok rfl).trans (Ledger.exec_lift_of_exec hxor _)
  · rw [hnumVars, afterProduct_numVars, List.countP_singleton, hcompacted, hbefore.maxTerms_eq]
    cases s.maxTerms.allows z.terms.size <;> rfl
  · exact List.forall_mem_singleton.mpr ⟨z, huncompacted, hcompacted⟩

/-- The gates of a constraint system over each modulus. -/
theorem backend_priced (p : Modulus) :
    (backend (table p)).Priced (Ledger.backend (table p)) p (DeclaresOver p) := by
  have hover {s : ConstraintSystem} {act : Action ConstraintSystem Combination}
      {noted : Action Ledger Combination} {gates count : Nat} (hs : s.modulus = p)
      (hact : s.Costs act noted gates count Declares) : s.Costs act noted gates count (DeclaresOver p) :=
    hact.imp fun t x hgrows hx => ⟨hgrows.precedes.modulus_eq.trans hs, hx⟩
  constructor
  case fits_of_extends => exact fun h hx => hx.of_extends h
  case constant => exact fun v hs => hover hs (costs_constant (require_bool p (by simp) _) rfl)
  case and => exact fun hx hy => hover hx.1 (costs_and p hx.2 hy.2)
  case or => exact fun hx hy => hover hx.1 (costs_or p hx.2 hy.2)
  case xor =>
    rintro s x y ⟨rfl, hx⟩ ⟨-, hy⟩
    exact hover rfl (costs_xor hx hy)
  case not => exact fun hx => hover hx.1 (costs_not p hx.2)

end Gates

end WordCircuit.ConstraintSystem
