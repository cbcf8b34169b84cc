import WordCircuit.Proofs.ConstraintSystem.Solutions

namespace WordCircuit

namespace ConstraintSystem

variable {s t u : ConstraintSystem}

/-- A gate is one variable and one constraint. -/
theorem Extends.size_add (h : s.Extends t) :
    t.constraints.size + s.numVars = s.constraints.size + t.numVars := by
  induction h with
  | refl => rfl
  | @gate t a b _ _ _ ih =>
    have hsize : (t.gate a b).constraints.size = t.constraints.size + 1 := by simp [ConstraintSystem.gate]
    rw [hsize, gate_numVars]
    omega

theorem Extends.maxTerms_eq (h : s.Extends t) : t.maxTerms = s.maxTerms := by
  induction h with
  | refl => rfl
  | gate _ _ _ ih => exact ih

/-- The system with another bound on the number of terms. -/
def withBound (s : ConstraintSystem) (bound : TermBound) : ConstraintSystem :=
  { s with maxTerms := bound }

@[simp] theorem withBound_modulus (s : ConstraintSystem) (bound : TermBound) :
    (s.withBound bound).modulus = s.modulus := rfl

@[simp] theorem withBound_nextVar (s : ConstraintSystem) (bound : TermBound) :
    (s.withBound bound).nextVar = s.nextVar := rfl

end ConstraintSystem

/-- An exclusive or of truth values that a system is asked for, and the system at that time. -/
structure Exclusion where
  system : ConstraintSystem
  left : Combination
  right : Combination

namespace Exclusion

/-- The exclusive or before compaction, which is what a system without a bound gives. -/
def uncompacted (e : Exclusion) : Except Fault Combination :=
  ((ConstraintSystem.xor (ConstraintSystem.table e.system.modulus) .bool e.left e.right).exec
    (e.system.withBound .unlimited)).1

/-- The exclusive or has more terms than the system keeps. -/
def isCompacted (e : Exclusion) : Bool :=
  match e.uncompacted with
  | .ok x => !e.system.maxTerms.allows x.terms.size
  | .error _ => false

theorem isCompacted_of_uncompacted {e : Exclusion} {x : Combination} (hx : e.uncompacted = .ok x) :
    e.isCompacted = !e.system.maxTerms.allows x.terms.size := by
  rw [isCompacted, hx]

end Exclusion

/-- A system and the exclusive ors that it has been asked for, the earliest first. -/
structure Ledger where
  system : ConstraintSystem
  exclusions : List Exclusion

namespace Ledger

variable {α : Type}

/-- Does to the system what the action does. -/
def lift (act : Action ConstraintSystem α) : Action Ledger α :=
  ExceptT.mk fun ledger =>
    ((act.exec ledger.system).1, { ledger with system := (act.exec ledger.system).2 })

theorem exec_lift_of_exec {act : Action ConstraintSystem α} {s t : ConstraintSystem}
    {outcome : Except Fault α} (hexec : act.exec s = (outcome, t)) (exclusions : List Exclusion) :
    (lift act).exec ⟨s, exclusions⟩ = (outcome, ⟨t, exclusions⟩) := by
  change ((act.exec s).1, (⟨(act.exec s).2, exclusions⟩ : Ledger)) = (outcome, ⟨t, exclusions⟩)
  rw [hexec]

def record (x y : Combination) : Action Ledger Unit :=
  modify fun ledger => { ledger with exclusions := ledger.exclusions ++ [⟨ledger.system, x, y⟩] }

/-- A constraint system that keeps a ledger of what its exclusive or is asked for. -/
def backend (table : Table) : Backend Ledger fun _ => Combination where
  name := ConstraintSystem.name
  table := table
  note notice := lift (ConstraintSystem.note notice)
  integer? _ := none
  constant ty value := lift (ConstraintSystem.constant table ty value)
  and ty x y := lift (ConstraintSystem.and table ty x y)
  xor ty x y := do
    record x y
    lift (ConstraintSystem.xor table ty x y)
  not ty x := lift (ConstraintSystem.not table ty x)
  assertTrue x := lift (ConstraintSystem.assertTrue table x)
  assertEq ty x y := lift (ConstraintSystem.assertEq table ty x y)

end Ledger

namespace ConstraintSystem

variable {s t u : ConstraintSystem} {α β : Type}

/-- The second system has so many gates more than the first, and one more for each of the exclusive
    ors that exceeds the bound of the first. -/
structure Spends (s t : ConstraintSystem) (gates : Nat) (exclusions : List Exclusion) : Prop where
  grows : s.Extends t
  numVars_eq : t.numVars = s.numVars + gates + exclusions.countP Exclusion.isCompacted
  decided : ∀ e ∈ exclusions, ∃ x, e.uncompacted = .ok x ∧
    e.isCompacted = !s.maxTerms.allows x.terms.size

namespace Spends

theorem refl (s : ConstraintSystem) : s.Spends s 0 [] :=
  ⟨.refl, rfl, fun _ he => nomatch he⟩

theorem gate {a b : Combination} (ha : s.Declares a) (hb : s.Declares b) :
    s.Spends (s.gate a b) 1 [] :=
  ⟨Extends.refl.gate ha hb, rfl, fun _ he => nomatch he⟩

theorem trans {gates gates' : Nat} {exclusions exclusions' : List Exclusion}
    (h : s.Spends t gates exclusions) (h' : t.Spends u gates' exclusions') :
    s.Spends u (gates + gates') (exclusions ++ exclusions') := by
  refine ⟨h.grows.trans h'.grows, ?_, ?_⟩
  · rw [List.countP_append, h'.numVars_eq, h.numVars_eq]
    omega
  · refine List.forall_mem_append.mpr ⟨h.decided, ?_⟩
    rw [← h.grows.maxTerms_eq]
    exact h'.decided

theorem size_eq {gates : Nat} {exclusions : List Exclusion} (h : s.Spends t gates exclusions) :
    t.constraints.size = s.constraints.size + gates + exclusions.countP Exclusion.isCompacted := by
  have hsize := h.grows.size_add
  have hvars := h.numVars_eq
  omega

/-- Without a bound nothing is compacted. -/
theorem countP_of_unlimited {gates : Nat} {exclusions : List Exclusion}
    (h : s.Spends t gates exclusions) (hbound : s.maxTerms = .unlimited) :
    exclusions.countP Exclusion.isCompacted = 0 := by
  rw [List.countP_eq_zero]
  intro e he
  obtain ⟨x, -, hcompacted⟩ := h.decided e he
  rw [hcompacted, hbound]
  exact Bool.false_ne_true

end Spends

/-- From the system the action succeeds, and with a ledger it does the same and asks for so many
    exclusive ors. It costs so many gates besides those that compact these, and its result is as `Q`
    says. -/
def Costs (s : ConstraintSystem) (act : Action ConstraintSystem α) (noted : Action Ledger α)
    (gates count : Nat) (Q : ConstraintSystem → α → Prop) : Prop :=
  ∃ a t exclusions, act.exec s = (.ok a, t) ∧
    (∀ earlier, noted.exec ⟨s, earlier⟩ = (.ok a, ⟨t, earlier ++ exclusions⟩)) ∧
    exclusions.length = count ∧ s.Spends t gates exclusions ∧ Q t a

namespace Costs

variable {act : Action ConstraintSystem α} {noted : Action Ledger α} {gates gates' count count' : Nat}
  {P : ConstraintSystem → α → Prop} {Q : ConstraintSystem → β → Prop}

theorem pure {a : α} (ha : P s a) : s.Costs (Pure.pure a) (Pure.pure a) 0 0 P :=
  ⟨a, s, [], rfl, fun earlier => by rw [List.append_nil]; rfl, rfl, .refl s, ha⟩

/-- What does not ask for an exclusive or does not touch the ledger. -/
theorem lift {a : α} (hexec : act.exec s = (.ok a, t)) (hspends : s.Spends t gates []) (ha : P t a) :
    s.Costs act (Ledger.lift act) gates 0 P := by
  refine ⟨a, t, [], hexec, fun earlier => ?_, rfl, hspends, ha⟩
  rw [List.append_nil]
  exact Ledger.exec_lift_of_exec hexec earlier

/-- Costs add up. -/
theorem bind {next : α → Action ConstraintSystem β} {nextNoted : α → Action Ledger β}
    (hact : s.Costs act noted gates count P)
    (hnext : ∀ t a, s.Extends t → P t a → t.Costs (next a) (nextNoted a) gates' count' Q) :
    s.Costs (act >>= next) (noted >>= nextNoted) (gates + gates') (count + count') Q := by
  obtain ⟨a, t, exclusions, hexec, hnoted, hlength, hspends, ha⟩ := hact
  obtain ⟨b, u, exclusions', hexec', hnoted', hlength', hspends', hb⟩ := hnext t a hspends.grows ha
  refine ⟨b, u, exclusions ++ exclusions', ?_, fun earlier => ?_, ?_, hspends.trans hspends', hb⟩
  · exact (Action.exec_bind_of_ok hexec).trans hexec'
  · rw [← List.append_assoc]
    exact (Action.exec_bind_of_ok (hnoted earlier)).trans (hnoted' _)
  · rw [List.length_append, hlength, hlength']

/-- A check that passes costs nothing. -/
theorem check {γ : Type} {x : Except Fault γ} {c : γ} (hx : x = .ok c)
    {next : γ → Action ConstraintSystem α} {nextNoted : γ → Action Ledger α}
    (hnext : s.Costs (next c) (nextNoted c) gates count P) :
    s.Costs ((liftM x : Action ConstraintSystem γ) >>= next) ((liftM x : Action Ledger γ) >>= nextNoted)
      gates count P := by
  obtain ⟨a, t, exclusions, hexec, hnoted, h⟩ := hnext
  refine ⟨a, t, exclusions, ?_, fun earlier => ?_, h⟩
  · exact (Action.exec_liftM_bind_of_ok hx s).trans hexec
  · exact (Action.exec_liftM_bind_of_ok hx _).trans (hnoted earlier)

theorem imp {P' : ConstraintSystem → α → Prop} (hact : s.Costs act noted gates count P)
    (himp : ∀ t a, s.Extends t → P t a → P' t a) : s.Costs act noted gates count P' := by
  obtain ⟨a, t, exclusions, hexec, hnoted, hlength, hspends, ha⟩ := hact
  exact ⟨a, t, exclusions, hexec, hnoted, hlength, hspends, himp t a hspends.grows ha⟩

theorem of_eq (hact : s.Costs act noted gates count P) (hgates : gates = gates')
    (hcount : count = count') : s.Costs act noted gates' count' P :=
  hgates ▸ hcount ▸ hact

/-- A loop costs what its steps cost, if growing spoils neither the items that are still to come
    nor the results that are there. -/
theorem mapM {ι : Type} {R : ConstraintSystem → ι → Prop}
    (hR : ∀ {s t item}, s.Extends t → R s item → R t item)
    (hP : ∀ {s t a}, s.Extends t → P s a → P t a) {f : ι → Action ConstraintSystem α}
    {g : ι → Action Ledger α} (hstep : ∀ {t item}, R t item → t.Costs (f item) (g item) gates count P)
    {items : List ι} (hitems : ∀ item ∈ items, R s item) :
    s.Costs (items.mapM f) (items.mapM g) (items.length * gates) (items.length * count)
      fun t out => out.length = items.length ∧ ∀ a ∈ out, P t a := by
  induction items generalizing s with
  | nil =>
    rw [List.length_nil, Nat.zero_mul, Nat.zero_mul]
    exact .pure ⟨rfl, fun _ ha => nomatch ha⟩
  | cons item items ih =>
    have hlength (n : Nat) : (items.length + 1) * n = n + (items.length * n + 0) := by
      rw [Nat.add_one_mul]
      omega
    rw [List.forall_mem_cons] at hitems
    rw [List.mapM_cons, List.mapM_cons, List.length_cons, hlength gates, hlength count]
    refine (hstep hitems.1).bind fun t a hgrows ha => ?_
    refine (ih fun other hother => hR hgrows (hitems.2 other hother)).bind fun u out hgrows' hout => ?_
    refine .pure ⟨congrArg Nat.succ hout.1, ?_⟩
    exact List.forall_mem_cons.mpr ⟨hP hgrows' ha, hout.2⟩

end Costs

end ConstraintSystem

/-- The gates of an exclusive or besides the one that may compact it. -/
def Modulus.exclusiveGates (p : Modulus) : Nat :=
  if p.isCharacteristicTwo then 0 else 1

/-- What a backend of truth values costs over a modulus, with a ledger and without. Operands fit,
    and so do the results. -/
structure Backend.Priced {Handle : ValueType → Type} (b : Backend ConstraintSystem Handle)
    (noted : Backend Ledger Handle) (p : Modulus) (Fits : ConstraintSystem → Handle .bool → Prop) :
    Prop where
  fits_of_extends : ∀ {s t : ConstraintSystem} {x : Handle .bool}, s.Extends t → Fits s x → Fits t x
  constant : ∀ {s : ConstraintSystem} (v : Bool), s.modulus = p →
    s.Costs (b.constant .bool (.bool v)) (noted.constant .bool (.bool v)) 0 0 Fits
  and : ∀ {s : ConstraintSystem} {x y : Handle .bool}, Fits s x → Fits s y →
    s.Costs (b.and .bool x y) (noted.and .bool x y) 1 0 Fits
  or : ∀ {s : ConstraintSystem} {x y : Handle .bool}, Fits s x → Fits s y →
    s.Costs (b.or .bool x y) (noted.or .bool x y) 1 0 Fits
  xor : ∀ {s : ConstraintSystem} {x y : Handle .bool}, Fits s x → Fits s y →
    s.Costs (b.xor .bool x y) (noted.xor .bool x y) p.exclusiveGates 1 Fits
  not : ∀ {s : ConstraintSystem} {x : Handle .bool}, Fits s x →
    s.Costs (b.not .bool x) (noted.not .bool x) 0 0 Fits

end WordCircuit
