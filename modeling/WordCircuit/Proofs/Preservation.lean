import WordCircuit.Proofs.Operation
import WordCircuit.Proofs.Reading

namespace WordCircuit

namespace Frame

variable {σ α β ι : Type} {F : Frame σ} {w : F.World} {P : F.World → α → Prop} {Q : F.World → β → Prop}

/-- Whatever comes of the action, it leaves behind the state of a grown world, and if it
    gives a result, then one that is as `Q` says in that world. -/
def Keeps (F : Frame σ) (w : F.World) (act : Action σ α) (Q : F.World → α → Prop) : Prop :=
  ∃ w', (act.exec (F.state w)).2 = F.state w' ∧ F.Grows w w' ∧
    ∀ a, (act.exec (F.state w)).1 = .ok a → Q w' a

theorem Yields.keeps {act : Action σ α} (h : F.Yields w act P) : F.Keeps w act P := by
  obtain ⟨a, w', hexec, hgrows, ha⟩ := h
  rw [Keeps, hexec]
  refine ⟨w', rfl, hgrows, ?_⟩
  intro b hb
  cases hb
  exact ha

namespace Keeps

theorem pure {a : α} (ha : P w a) : F.Keeps w (Pure.pure a : Action σ α) P := by
  apply Yields.keeps
  exact .pure ha

/-- An action that leaves the state as it is need only be right about its result. -/
theorem lift {x : Except Fault α} (hx : ∀ a, x = .ok a → P w a) :
    F.Keeps w (liftM x : Action σ α) P :=
  ⟨w, rfl, F.grows_refl w, hx⟩

theorem bind {act : Action σ α} {next : α → Action σ β} (hact : F.Keeps w act P)
    (hnext : ∀ w' a, F.Grows w w' → P w' a → F.Keeps w' (next a) Q) :
    F.Keeps w (act >>= next) Q := by
  obtain ⟨w₁, hstate, hgrows, hresult⟩ := hact
  unfold Keeps
  rw [Action.exec_bind]
  cases hexec : act.exec (F.state w) with
  | mk outcome t =>
    rw [hexec] at hstate hresult
    cases outcome with
    | ok a =>
      obtain ⟨w₂, hstate', hgrows', hresult'⟩ := hnext w₁ a hgrows (hresult a rfl)
      simp only at hstate ⊢
      rw [hstate]
      exact ⟨w₂, hstate', F.grows_trans hgrows hgrows', hresult'⟩
    | error fault => exact ⟨w₁, hstate, hgrows, fun _ h => nomatch h⟩

/-- A check that passes leaves everything to what comes after it. -/
theorem check {x : Except Fault α} {a : α} {next : α → Action σ β} (hx : x = .ok a)
    (hnext : F.Keeps w (next a) Q) : F.Keeps w ((liftM x : Action σ α) >>= next) Q := by
  rw [Keeps, Action.exec_liftM_bind_of_ok hx]
  exact hnext

/-- A check that fails ends everything, so what comes after it may rely on it. -/
theorem after_check {x : Except Fault α} {next : α → Action σ β}
    (hnext : ∀ a, x = .ok a → F.Keeps w (next a) Q) :
    F.Keeps w ((liftM x : Action σ α) >>= next) Q := by
  cases hx : x with
  | ok a => exact check rfl (hnext a hx)
  | error fault => exact ⟨w, rfl, F.grows_refl w, fun _ h => nomatch h⟩

theorem stop {fault : Fault} : F.Keeps w (throw fault : Action σ α) P :=
  ⟨w, rfl, F.grows_refl w, fun _ h => nomatch h⟩

/-- An operation that is not defined does nothing. -/
theorem undefined {x : Except Fault Unit} : F.Keeps w (do liftM x; throw .unimplemented) P :=
  .after_check fun _ _ => .stop

theorem get {next : σ → Action σ β} (hnext : F.Keeps w (next (F.state w)) Q) :
    F.Keeps w ((MonadState.get : Action σ σ) >>= next) Q := by
  obtain ⟨w', h⟩ := hnext
  rw [Keeps, Action.exec_bind_of_ok (Action.exec_get _)]
  exact ⟨w', h⟩

theorem imp {P' : F.World → α → Prop} {act : Action σ α} (hact : F.Keeps w act P)
    (himp : ∀ w' a, F.Grows w w' → P w' a → P' w' a) : F.Keeps w act P' := by
  obtain ⟨w', hstate, hgrows, hresult⟩ := hact
  exact ⟨w', hstate, hgrows, fun a ha => himp w' a hgrows (hresult a ha)⟩

/-- A loop keeps what each of its steps keeps, if growing does not spoil the items that
    are still to come nor the results that are there. -/
theorem mapM {R : F.World → ι → Prop} (hR : ∀ {u v item}, F.Grows u v → R u item → R v item)
    (hP : ∀ {u v a}, F.Grows u v → P u a → P v a) {f : ι → Action σ α}
    (hf : ∀ {u item}, R u item → F.Keeps u (f item) P) {items : List ι}
    (hitems : ∀ item ∈ items, R w item) :
    F.Keeps w (items.mapM f) fun w' out => ∀ a ∈ out, P w' a := by
  induction items generalizing w with
  | nil =>
    apply pure
    intro a ha
    cases ha
  | cons item items ih =>
    rw [List.forall_mem_cons] at hitems
    rw [List.mapM_cons]
    refine (hf hitems.1).bind fun w₁ a hgrows ha => ?_
    have hrest : ∀ other ∈ items, R w₁ other := fun other hmem => hR hgrows (hitems.2 other hmem)
    refine (ih hrest).bind fun w₂ out hgrows' hout => ?_
    apply pure
    exact List.forall_mem_cons.mpr ⟨hP hgrows' ha, hout⟩

end Keeps

end Frame

/-- A backend whose operations make handles that fit from handles that fit, whatever comes
    of them, and only ever let the world grow. Assertions are not among them. -/
structure Backend.Keeps {σ : Type} {Handle : ValueType → Type} (b : Backend σ Handle) (F : Frame σ)
    (Fits : F.World → (ty : ValueType) → Handle ty → Prop) : Prop where
  fits_of_grows : ∀ {w w' : F.World} {ty : ValueType} {x : Handle ty}, F.Grows w w' →
    Fits w ty x → Fits w' ty x
  constant : ∀ {w : F.World} (ty : ValueType) (d : Datum),
    F.Keeps w (b.constant ty d) (Fits · ty)
  binary : ∀ {w : F.World} (op : BinaryOp) (ty : ValueType) {x y : Handle ty}, Fits w ty x →
    Fits w ty y → F.Keeps w (op.run b ty x y) (Fits · ty)
  not : ∀ {w : F.World} (ty : ValueType) {x : Handle ty}, Fits w ty x →
    F.Keeps w (b.not ty x) (Fits · ty)
  shift : ∀ {w : F.World} (op : ShiftOp) (ty : ValueType) {x : Handle ty} (amount : Datum),
    Fits w ty x → F.Keeps w (op.run b ty x amount) (Fits · ty)

end WordCircuit
