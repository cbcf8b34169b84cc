import WordCircuit.Proofs.Program.Basic

namespace WordCircuit

/-- What an assertion gives, by whether it holds. -/
def asserted (condition : Prop) [Decidable condition] : Except Fault.Kind Unit :=
  if condition then .ok () else .error .assertion

/-- A host of programs on which inputs have the given bits, and on which every step does
    on handles what it does on bit vectors. -/
structure Interpretation.Serves {σ : Type} {Handle : ValueType → Type} (I : Interpretation σ Handle)
    (host : Host σ Handle) (bits : Nat → Bool) : Prop where
  models : ∀ ty, I.Models host.backend ty
  input : ∀ (w : I.World) (k : Nat),
    I.Yields w (host.input k) (I.Reads · .bool · (Value.ofBool (bits k)))
  group : ∀ {w : I.World} {ty : ValueType} {handles : Fin ty.width → Handle .bool}
    {bit : Fin ty.width → Value .bool}, (∀ i, I.Reads w .bool (handles i) (bit i)) →
      I.Yields w (host.group ty handles) (I.Reads · ty · (Bits.word fun i => (bit i).getLsbD 0))
  assertTrue : ∀ {w : I.World} {x : Handle .bool} {u : Value .bool}, I.Reads w .bool x u →
    I.Follows w (host.backend.assertTrue x) (fun _ _ _ => True) (asserted (u = 1))
  assertEq : ∀ {w : I.World} {ty : ValueType} {x y : Handle ty} {u v : Value ty},
    I.Reads w ty x u → I.Reads w ty y v →
      I.Follows w (host.backend.assertEq ty x y) (fun _ _ _ => True) (asserted (u = v))

theorem ValueType.validate_kind {ty : ValueType} {constant : Datum} {fault : Fault}
    (h : ty.validate constant = .error fault) : fault.kind = .value := by
  unfold validate at h
  split at h <;> try cases h
  · rfl
  · split at h <;> cases h
    rfl
  · rfl

theorem ValueType.shiftAmount_kind {ty : ValueType} {amount : Datum} {rotation : Bool}
    {fault : Fault} (h : ty.shiftAmount amount rotation = .error fault) : fault.kind = .value := by
  unfold shiftAmount at h
  split at h
  · rename_i k
    by_cases hrange : 0 ≤ k ∧ k ≤ (if rotation then ty.width - 1 else ty.width : Nat)
    · cases (if_pos hrange).symm.trans h
    · obtain rfl := Except.error.inj ((if_neg hrange).symm.trans h)
      rfl
  · cases h
    rfl

theorem Operation.value_kind {Γ : List ValueType} {ty : ValueType} {op : Operation Γ ty}
    {values : Env Value Γ} {kind : Fault.Kind} (h : op.value values = .error kind) :
    kind = .type ∨ kind = .value := by
  cases op with
  | constant d =>
    obtain ⟨v, -, hvalue⟩ | ⟨fault, hfault, hvalue⟩ := ty.value_cases d
    · cases hvalue.symm.trans h
    · obtain rfl := Except.error.inj (hvalue.symm.trans h)
      exact .inr (ValueType.validate_kind hfault)
  | binary op a b =>
    cases op with
    | and => cases h
    | or => cases h
    | xor => cases h
    | wrappingAdd =>
      rw [value, BinaryOp.value] at h
      split at h <;> cases h
      exact .inl rfl
  | not a => cases h
  | shift op a amount =>
    rw [value, ShiftOp.value] at h
    split at h
    · split at h <;> cases h
      exact .inr (ValueType.shiftAmount_kind ‹_›)
    · cases h
      exact .inl rfl

namespace Program

variable {σ : Type} {Handle : ValueType → Type} {Γ Δ : List ValueType}

def steps {Γ : List ValueType} : Program Γ → Nat
  | start => 0
  | input P => P.steps + 1
  | group P _ _ => P.steps + 1
  | operation P _ => P.steps + 1
  | assertTrue P _ => P.steps + 1
  | assertEq P _ _ => P.steps + 1

/-- The values of all handles for given input bits, or the kind of fault at which a run
    stops because of a step that is refused or an assertion that fails. -/
def outcome (bits : Nat → Bool) {Γ : List ValueType} :
    Program Γ → Except Fault.Kind (Env Value Γ)
  | start => .ok .empty
  | input P => do
    let values ← P.outcome bits
    return values.push (Value.ofBool (bits P.inputs.length))
  | group P ty refs => do
    let values ← P.outcome bits
    return values.push (Bits.word fun i => (values .bool (refs i)).getLsbD 0 : Value ty)
  | operation P op => do
    let values ← P.outcome bits
    return values.push (← op.value values)
  | assertTrue P a => do
    let values ← P.outcome bits
    asserted (values .bool a = 1)
    return values
  | @assertEq _ ty P a b => do
    let values ← P.outcome bits
    asserted (values ty a = values ty b)
    return values

/-- The second program is the first with one more step. -/
inductive Next : {Γ Δ : List ValueType} → Program Γ → Program Δ → Prop where
  | input {Γ : List ValueType} (P : Program Γ) : Next P P.input
  | group {Γ : List ValueType} (P : Program Γ) (ty : ValueType) (refs : Fin ty.width → Ref Γ .bool) :
      Next P (P.group ty refs)
  | operation {Γ : List ValueType} {ty : ValueType} (P : Program Γ) (op : Operation Γ ty) :
      Next P (P.operation op)
  | assertTrue {Γ : List ValueType} (P : Program Γ) (a : Ref Γ .bool) : Next P (P.assertTrue a)
  | assertEq {Γ : List ValueType} {ty : ValueType} (P : Program Γ) (a b : Ref Γ ty) :
      Next P (P.assertEq a b)

/-- From state `s` the first `count` steps of a program complete, and the next one
    stops at a fault of this kind. -/
inductive StopsAt (host : Host σ Handle) (s : σ) (count : Nat) (kind : Fault.Kind) :
    {Γ : List ValueType} → Program Γ → Prop where
  | here {Γ Δ : List ValueType} {P : Program Γ} {P' : Program Δ} (hnext : P.Next P')
      (hcount : P.steps = count) {env : Env Handle Γ} {t u : σ} {fault : Fault}
      (hrun : (P.run host).exec s = (.ok env, t)) (hstop : (P'.run host).exec s = (.error fault, u))
      (hkind : fault.kind = kind) : StopsAt host s count kind P'
  | earlier {Γ Δ : List ValueType} {P : Program Γ} {P' : Program Δ} (hnext : P.Next P')
      (hstops : StopsAt host s count kind P) : StopsAt host s count kind P'

/-- The last step of a program runs after all the others. -/
theorem Next.exists_run {P : Program Γ} {P' : Program Δ} (hnext : P.Next P') (host : Host σ Handle) :
    ∃ last : Env Handle Γ → Action σ (Env Handle Δ), P'.run host = P.run host >>= last := by
  cases hnext <;> exact ⟨_, rfl⟩

theorem Next.exists_outcome {P : Program Γ} {P' : Program Δ} (hnext : P.Next P') (bits : Nat → Bool) :
    ∃ last : Env Value Γ → Except Fault.Kind (Env Value Δ),
      P'.outcome bits = P.outcome bits >>= last := by
  cases hnext <;> exact ⟨_, rfl⟩

/-- A run that stops at a step ends with the fault of that step, and there is such a
    step. -/
theorem StopsAt.exec {host : Host σ Handle} {s : σ} {count : Nat} {kind : Fault.Kind}
    {P : Program Γ} (h : StopsAt host s count kind P) :
    count < P.steps ∧ ∃ fault t, (P.run host).exec s = (.error fault, t) ∧ fault.kind = kind := by
  induction h with
  | here hnext hcount _ hstop hkind =>
    refine ⟨?_, _, _, hstop, hkind⟩
    cases hnext <;> exact hcount ▸ Nat.lt_succ_self _
  | earlier hnext _ ih =>
    obtain ⟨hlt, fault, t, hexec, hkind⟩ := ih
    obtain ⟨last, hlast⟩ := hnext.exists_run host
    refine ⟨?_, fault, t, ?_, hkind⟩
    · cases hnext <;> exact Nat.lt_succ_of_lt hlt
    · rw [hlast]
      exact Action.exec_bind_of_error hexec

variable {I : Interpretation σ Handle} {host : Host σ Handle} {bits : Nat → Bool}

/-- On a host that serves programs every run comes to the outcome that bit vectors
    give. -/
theorem follows_run (hserves : I.Serves host bits) (P : Program Γ) (w : I.World) :
    I.Follows w (P.run host) (fun w' env values => I.ReadsAll w' env values) (P.outcome bits) := by
  -- The last step runs in a world that has grown since its operands were made, and the
  -- handles before it are carried along into the world that the step leaves.
  induction P generalizing w with
  | start => exact .of_yields (.pure fun _ r => nomatch r)
  | input P ih =>
    refine Frame.Follows.bind (ih w) fun w₁ env values _ henv => .of_yields ?_
    refine (hserves.input w₁ _).bind fun w₂ x hgrows hx => .pure ?_
    exact (henv.of_grows hgrows).push hx
  | group P ty refs ih =>
    refine Frame.Follows.bind (ih w) fun w₁ env values _ henv => .of_yields ?_
    refine (hserves.group fun i => henv .bool (refs i)).bind fun w₂ x hgrows hx => .pure ?_
    exact (henv.of_grows hgrows).push hx
  | @operation _ ty P op ih =>
    refine Frame.Follows.bind (ih w) fun w₁ env values _ henv => ?_
    refine (henv.follows (hserves.models ty) op).bind fun w₂ x v hgrows hx => .of_yields (.pure ?_)
    exact (henv.of_grows hgrows).push hx
  | assertTrue P a ih =>
    refine Frame.Follows.bind (ih w) fun w₁ env values _ henv => ?_
    refine (hserves.assertTrue (henv .bool a)).bind fun w₂ _ _ hgrows _ => .of_yields (.pure ?_)
    exact henv.of_grows hgrows
  | @assertEq _ ty P a b ih =>
    refine Frame.Follows.bind (ih w) fun w₁ env values _ henv => ?_
    refine (hserves.assertEq (henv ty a) (henv ty b)).bind fun w₂ _ _ hgrows _ => .of_yields (.pure ?_)
    exact henv.of_grows hgrows

theorem asserted_kind {condition : Prop} [Decidable condition] {kind : Fault.Kind}
    (h : asserted condition = .error kind) : kind = .assertion := by
  unfold asserted at h
  split at h <;> cases h
  rfl

/-- The only faults of programs are those of refused types, refused values and failed
    assertions. -/
theorem outcome_kind {P : Program Γ} {kind : Fault.Kind} (h : P.outcome bits = .error kind) :
    kind ∈ [Fault.Kind.type, .value, .assertion] := by
  induction P with
  | start => cases h
  | input P ih =>
    obtain h | ⟨values, -, h⟩ := bind_eq_error_iff.mp h
    · exact ih h
    · cases h
  | group P ty refs ih =>
    obtain h | ⟨values, -, h⟩ := bind_eq_error_iff.mp h
    · exact ih h
    · cases h
  | operation P op ih =>
    obtain h | ⟨values, -, h⟩ := bind_eq_error_iff.mp h
    · exact ih h
    · obtain h | ⟨v, -, h⟩ := bind_eq_error_iff.mp h
      · obtain rfl | rfl := Operation.value_kind h <;> simp
      · cases h
  | assertTrue P a ih =>
    obtain h | ⟨values, -, h⟩ := bind_eq_error_iff.mp h
    · exact ih h
    · obtain h | ⟨v, -, h⟩ := bind_eq_error_iff.mp h
      · simp [asserted_kind h]
      · cases h
  | assertEq P a b ih =>
    obtain h | ⟨values, -, h⟩ := bind_eq_error_iff.mp h
    · exact ih h
    · obtain h | ⟨v, -, h⟩ := bind_eq_error_iff.mp h
      · simp [asserted_kind h]
      · cases h

/-- The place at which a program stops on every host that serves it. -/
def StopsEverywhere (bits : Nat → Bool) (P : Program Γ) (kind : Fault.Kind) : Prop :=
  ∃ count, ∀ {σ : Type} {Handle : ValueType → Type} {I : Interpretation σ Handle}
    {host : Host σ Handle}, I.Serves host bits → ∀ w : I.World, StopsAt host (I.state w) count kind P

/-- A fault of a program with one more step is that of the program before, or the new
    step is where it arises. -/
theorem Next.stopsEverywhere {P : Program Γ} {P' : Program Δ} (hnext : P.Next P')
    (hbefore : ∀ kind, P.outcome bits = .error kind → P.StopsEverywhere bits kind)
    {kind : Fault.Kind} (h : P'.outcome bits = .error kind) : P'.StopsEverywhere bits kind := by
  cases houtcome : P.outcome bits with
  | error first =>
    obtain ⟨last, hlast⟩ := hnext.exists_outcome bits
    rw [hlast, houtcome] at h
    obtain rfl := Except.error.inj h
    obtain ⟨count, hstops⟩ := hbefore first houtcome
    exact ⟨count, fun hserves w => .earlier hnext (hstops hserves w)⟩
  | ok values =>
    -- All steps before complete on every host, so the number of the last one is a place
    -- that does not depend on the host.
    refine ⟨P.steps, fun hserves w => ?_⟩
    have hrun := follows_run hserves P w
    have hstop := follows_run hserves P' w
    rw [houtcome] at hrun
    rw [h] at hstop
    obtain ⟨env, w', hrun, -⟩ := hrun
    obtain ⟨fault, u, hstop, hkind⟩ := hstop
    exact .here hnext rfl hrun hstop hkind

theorem stopsEverywhere_of_outcome {P : Program Γ} {kind : Fault.Kind}
    (h : P.outcome bits = .error kind) : P.StopsEverywhere bits kind := by
  induction P generalizing kind with
  | start => cases h
  | input P ih => exact (Next.input P).stopsEverywhere (fun _ => ih) h
  | group P ty refs ih => exact (Next.group P ty refs).stopsEverywhere (fun _ => ih) h
  | operation P op ih => exact (Next.operation P op).stopsEverywhere (fun _ => ih) h
  | assertTrue P a ih => exact (Next.assertTrue P a).stopsEverywhere (fun _ => ih) h
  | assertEq P a b ih => exact (Next.assertEq P a b).stopsEverywhere (fun _ => ih) h

end Program

end WordCircuit
