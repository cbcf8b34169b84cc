import Mathlib.Data.List.Forall2
import WordCircuit.Proofs.Action
import WordCircuit.Proofs.Operation

namespace WordCircuit

theorem forall₂_zip_zip {α β : Type} {P : α → α → Prop} {Q : β → β → Prop} {xs xs' : List α}
    {ys ys' : List β} (hxs : List.Forall₂ P xs xs') (hys : List.Forall₂ Q ys ys') :
    List.Forall₂ (fun pair pair' => P pair.1 pair'.1 ∧ Q pair.2 pair'.2) (xs.zip ys) (xs'.zip ys') := by
  induction hxs generalizing ys ys' with
  | nil => exact .nil
  | cons hx _ ih =>
    cases hys with
    | nil => exact .nil
    | cons hy hys => exact .cons ⟨hx, hy⟩ (ih hys)

/-- Two loops over related items that both complete keep what they accumulate related. -/
theorem foldlM_related {α β ι κ : Type} {P : ι → κ → Prop} {R : α → β → Prop}
    {f : α → ι → Except Fault α} {g : β → κ → Except Fault β}
    (hstep : ∀ {a b i k a' b'}, R a b → P i k → f a i = .ok a' → g b k = .ok b' → R a' b')
    {items : List ι} {items' : List κ} (hitems : List.Forall₂ P items items') {a a' : α} {b b' : β}
    (hinit : R a b) (hfold : items.foldlM f a = .ok a') (hfold' : items'.foldlM g b = .ok b') :
    R a' b' := by
  induction hitems generalizing a b with
  | nil =>
    obtain rfl := Except.ok.inj hfold
    obtain rfl := Except.ok.inj hfold'
    exact hinit
  | cons hitem _ ih =>
    rw [List.foldlM_cons] at hfold hfold'
    obtain ⟨next, hnext, hrest⟩ := bind_eq_ok_iff.mp hfold
    obtain ⟨next', hnext', hrest'⟩ := bind_eq_ok_iff.mp hfold'
    exact ih (hstep hinit hitem hnext hnext') hrest hrest'

namespace Action

variable {σ α β γ δ ι κ : Type} {S : σ → σ → Prop}

/-- Two runs from states that are related by `S`: if both complete, the states that they
    leave behind are related again, and what they give is related by `R`. -/
structure Couples (S : σ → σ → Prop) (act : Action σ α) (act' : Action σ β) (R : α → β → Prop) :
    Prop where
  related : ∀ {s s' t t' a b}, S s s' → act.exec s = (.ok a, t) → act'.exec s' = (.ok b, t') →
    S t t' ∧ R a b

namespace Couples

variable {act : Action σ α} {act' : Action σ β} {R : α → β → Prop}

theorem pure {a : α} {b : β} (h : R a b) : Couples S (Pure.pure a) (Pure.pure b) R := by
  constructor
  intro s s' t t' _ _ hs hexec hexec'
  cases hexec
  cases hexec'
  exact ⟨hs, h⟩

theorem bind {next : α → Action σ γ} {next' : β → Action σ δ} {Q : γ → δ → Prop}
    (hact : Couples S act act' R) (hnext : ∀ a b, R a b → Couples S (next a) (next' b) Q) :
    Couples S (act >>= next) (act' >>= next') Q := by
  constructor
  intro s s' u u' _ _ hs hexec hexec'
  obtain ⟨a, t, hfirst, hlast⟩ := exec_bind_eq_ok_iff.mp hexec
  obtain ⟨b, t', hfirst', hlast'⟩ := exec_bind_eq_ok_iff.mp hexec'
  obtain ⟨ht, hab⟩ := hact.related hs hfirst hfirst'
  exact (hnext a b hab).related ht hlast hlast'

theorem imp {Q : α → β → Prop} (hact : Couples S act act' R) (himp : ∀ a b, R a b → Q a b) :
    Couples S act act' Q :=
  ⟨fun hs hexec hexec' => (hact.related hs hexec hexec').imp_right (himp _ _)⟩

theorem lift {x : Except Fault α} {x' : Except Fault β}
    (h : ∀ a b, x = .ok a → x' = .ok b → R a b) :
    Couples S (liftM x : Action σ α) (liftM x' : Action σ β) R := by
  constructor
  intro s s' t t' a b hs hexec hexec'
  obtain ⟨hx, rfl⟩ := Prod.mk.inj hexec
  obtain ⟨hx', rfl⟩ := Prod.mk.inj hexec'
  exact ⟨hs, h a b hx hx'⟩

/-- A check that is the same on both sides gives the same on both sides. -/
theorem same (x : Except Fault α) : Couples S (liftM x : Action σ α) (liftM x) Eq :=
  lift fun _ _ h h' => Except.ok.inj (h.symm.trans h')

/-- Checks that are made first leave everything to what comes after them. -/
theorem after_check {x : Except Fault ι} {x' : Except Fault κ} {next : ι → Action σ α}
    {next' : κ → Action σ β} (hnext : ∀ i k, Couples S (next i) (next' k) R) :
    Couples S ((liftM x : Action σ ι) >>= next) ((liftM x' : Action σ κ) >>= next') R :=
  (lift (R := fun _ _ => True) fun _ _ _ _ => trivial).bind fun i k _ => hnext i k

theorem get : Couples S (MonadState.get : Action σ σ) MonadState.get S := by
  constructor
  intro s s' t t' _ _ hs hexec hexec'
  cases hexec
  cases hexec'
  exact ⟨hs, hs⟩

/-- A run that stops does not complete, and then nothing is to be related. -/
theorem stop {fault : Fault} : Couples S (throw fault : Action σ α) act' R :=
  ⟨fun _ hexec _ => nomatch hexec⟩

/-- Actions on related items, one after the other, give related lists. -/
theorem mapM {P : ι → κ → Prop} {f : ι → Action σ α} {g : κ → Action σ β} {items : List ι}
    {items' : List κ} (hitems : List.Forall₂ P items items')
    (hstep : ∀ i k, P i k → Couples S (f i) (g k) R) :
    Couples S (items.mapM f) (items'.mapM g) (List.Forall₂ R) := by
  induction hitems with
  | nil => exact .pure .nil
  | cons hitem _ ih =>
    rw [List.mapM_cons, List.mapM_cons]
    exact (hstep _ _ hitem).bind fun _ _ hab => ih.bind fun _ _ hrest => .pure (.cons hab hrest)

theorem mapM_same {f : ι → Action σ α} {g : ι → Action σ β} (items : List ι)
    (hstep : ∀ i, Couples S (f i) (g i) R) :
    Couples S (items.mapM f) (items.mapM g) (List.Forall₂ R) := by
  have hitems : List.Forall₂ Eq items items := List.forall₂_refl _
  refine mapM hitems fun i k heq => ?_
  subst heq
  exact hstep i

theorem forM {P : ι → κ → Prop} {f : ι → Action σ PUnit} {g : κ → Action σ PUnit} {items : List ι}
    {items' : List κ} (hitems : List.Forall₂ P items items')
    (hstep : ∀ i k, P i k → Couples S (f i) (g k) fun _ _ => True) :
    Couples S (items.forM f) (items'.forM g) fun _ _ => True := by
  induction hitems with
  | nil => exact .pure trivial
  | cons hitem _ ih => exact (hstep _ _ hitem).bind fun _ _ _ => ih

/-- A loop over the same items keeps what it accumulates related. -/
theorem foldlM {f : α → ι → Action σ α} {g : β → ι → Action σ β} {items : List ι} {a : α} {b : β}
    (hinit : R a b) (hstep : ∀ a b i, R a b → Couples S (f a i) (g b i) R) :
    Couples S (items.foldlM f a) (items.foldlM g b) R := by
  induction items generalizing a b with
  | nil => exact .pure hinit
  | cons item items ih =>
    rw [List.foldlM_cons, List.foldlM_cons]
    exact (hstep a b item hinit).bind fun _ _ hab => ih hab

end Couples

end Action

/-- A backend whose operations take related handles to related handles, whatever the
    values of constants are. -/
structure Backend.Uniform {σ : Type} {Handle : ValueType → Type} (b : Backend σ Handle)
    (S : σ → σ → Prop) (R : (ty : ValueType) → Handle ty → Handle ty → Prop) : Prop where
  constant : ∀ (ty : ValueType) (d d' : Datum),
    Action.Couples S (b.constant ty d) (b.constant ty d') (R ty)
  binary : ∀ (op : BinaryOp) (ty : ValueType) {x x' y y' : Handle ty}, R ty x x' → R ty y y' →
    Action.Couples S (op.run b ty x y) (op.run b ty x' y') (R ty)
  not : ∀ (ty : ValueType) {x x' : Handle ty}, R ty x x' →
    Action.Couples S (b.not ty x) (b.not ty x') (R ty)
  shift : ∀ (op : ShiftOp) (ty : ValueType) {x x' : Handle ty} (amount : Datum), R ty x x' →
    Action.Couples S (op.run b ty x amount) (op.run b ty x' amount) (R ty)
  assertTrue : ∀ {x x' : Handle .bool}, R .bool x x' →
    Action.Couples S (b.assertTrue x) (b.assertTrue x') fun _ _ => True
  assertEq : ∀ (ty : ValueType) {x x' y y' : Handle ty}, R ty x x' → R ty y y' →
    Action.Couples S (b.assertEq ty x y) (b.assertEq ty x' y') fun _ _ => True

end WordCircuit
