import Mathlib.Data.List.Forall2
import WordCircuit.Proofs.Action

namespace WordCircuit

theorem forall₂_replicate {α β : Type} {P : α → β → Prop} {x : α} {y : β} (h : P x y) (n : Nat) :
    List.Forall₂ P (List.replicate n x) (List.replicate n y) := by
  induction n with
  | zero => exact .nil
  | succ n ih => exact .cons h ih

/-- The worlds that a computation passes through. A world is a state together with
    whatever else decides what handles stand for, and it grows into those that
    further operations can lead to. -/
structure Frame (σ : Type) where
  World : Type
  state : World → σ
  Grows : World → World → Prop
  grows_refl : ∀ w, Grows w w
  grows_trans : ∀ {u v w}, Grows u v → Grows v w → Grows u w

namespace Frame

variable {σ α β : Type} {F : Frame σ} {w : F.World}

/-- From the state of `w` the action succeeds, and it ends in the state of a grown
    world in which its result is as `Q` says. -/
def Yields (F : Frame σ) (w : F.World) (act : Action σ α) (Q : F.World → α → Prop) : Prop :=
  ∃ a w', act.exec (F.state w) = (.ok a, F.state w') ∧ F.Grows w w' ∧ Q w' a

theorem Yields.pure {Q : F.World → α → Prop} {a : α} (h : Q w a) :
    F.Yields w (Pure.pure a : Action σ α) Q :=
  ⟨a, w, rfl, F.grows_refl w, h⟩

theorem Yields.bind {P : F.World → α → Prop} {Q : F.World → β → Prop} {act : Action σ α}
    {next : α → Action σ β} (hact : F.Yields w act P)
    (hnext : ∀ w' a, F.Grows w w' → P w' a → F.Yields w' (next a) Q) :
    F.Yields w (act >>= next) Q := by
  obtain ⟨a, w₁, hexec, hgrows, ha⟩ := hact
  obtain ⟨b, w₂, hexec', hgrows', hb⟩ := hnext w₁ a hgrows ha
  exact ⟨b, w₂, (Action.exec_bind_of_ok hexec).trans hexec', F.grows_trans hgrows hgrows', hb⟩

/-- A check that passes leaves everything to what comes after it. -/
theorem Yields.check {Q : F.World → β → Prop} {x : Except Fault α} {a : α} {next : α → Action σ β}
    (hx : x = .ok a) (hnext : F.Yields w (next a) Q) :
    F.Yields w ((liftM x : Action σ α) >>= next) Q := by
  obtain ⟨b, w', hexec, h⟩ := hnext
  exact ⟨b, w', (Action.exec_liftM_bind_of_ok hx _).trans hexec, h⟩

theorem Yields.get {Q : F.World → β → Prop} {next : σ → Action σ β}
    (hnext : F.Yields w (next (F.state w)) Q) :
    F.Yields w ((MonadState.get : Action σ σ) >>= next) Q := by
  obtain ⟨b, w', hexec, h⟩ := hnext
  exact ⟨b, w', (Action.exec_bind_of_ok (Action.exec_get _)).trans hexec, h⟩

/-- The action does what is expected: it yields the expected value, or it stops at a
    fault of the expected kind. -/
def Follows (F : Frame σ) (w : F.World) (act : Action σ α) (Q : F.World → α → β → Prop) :
    Except Fault.Kind β → Prop
  | .ok v => F.Yields w act (Q · · v)
  | .error kind => ∃ fault s, act.exec (F.state w) = (.error fault, s) ∧ fault.kind = kind

theorem Yields.imp {P Q : F.World → α → Prop} {act : Action σ α} (hact : F.Yields w act P)
    (himp : ∀ w' a, F.Grows w w' → P w' a → Q w' a) : F.Yields w act Q := by
  obtain ⟨a, w', hexec, hgrows, ha⟩ := hact
  exact ⟨a, w', hexec, hgrows, himp w' a hgrows ha⟩

/-- The same worlds with further ways to grow. -/
abbrev widen (F : Frame σ) (Grows : F.World → F.World → Prop) (hrefl : ∀ w, Grows w w)
    (htrans : ∀ u v w, Grows u v → Grows v w → Grows u w) : Frame σ where
  World := F.World
  state := F.state
  Grows := Grows
  grows_refl := hrefl
  grows_trans := htrans _ _ _

theorem Yields.widen {act : Action σ α} {Q : F.World → α → Prop} (h : F.Yields w act Q)
    {Grows : F.World → F.World → Prop} {hrefl : ∀ w, Grows w w}
    {htrans : ∀ u v w, Grows u v → Grows v w → Grows u w}
    (hgrows : ∀ w', F.Grows w w' → Grows w w') : (F.widen Grows hrefl htrans).Yields w act Q := by
  obtain ⟨a, w', hexec, hw', ha⟩ := h
  exact ⟨a, w', hexec, hgrows w' hw', ha⟩

theorem Follows.widen {act : Action σ α} {Q : F.World → α → β → Prop}
    {expected : Except Fault.Kind β} (h : F.Follows w act Q expected)
    {Grows : F.World → F.World → Prop} {hrefl : ∀ w, Grows w w}
    {htrans : ∀ u v w, Grows u v → Grows v w → Grows u w}
    (hgrows : ∀ w', F.Grows w w' → Grows w w') :
    (F.widen Grows hrefl htrans).Follows w act Q expected := by
  cases expected with
  | ok v => exact Yields.widen h hgrows
  | error kind => exact h

/-- A loop keeps an invariant that each of its steps takes one item further. -/
theorem Yields.foldlM {ι : Type} (P : Nat → F.World → β → Prop) (f : β → ι → Action σ β)
    (items : List ι) {init : β} (hinit : P 0 w init)
    (hstep : ∀ (i : Nat) (hi : i < items.length) (w' : F.World) (acc : β), F.Grows w w' →
      P i w' acc → F.Yields w' (f acc items[i]) (P (i + 1))) :
    F.Yields w (items.foldlM f init) (P items.length) := by
  induction items generalizing w init P with
  | nil => exact .pure hinit
  | cons item items ih =>
    rw [List.foldlM_cons]
    refine (hstep 0 (Nat.succ_pos _) w init (F.grows_refl w) hinit).bind fun w₁ acc hgrows hacc => ?_
    refine ih (fun i => P (i + 1)) hacc fun i hi w' acc' hgrows' => ?_
    exact hstep (i + 1) (Nat.succ_lt_succ hi) w' acc' (F.grows_trans hgrows hgrows')

end Frame

/-- What the handles of type `β` stand for in each world. It stays when the world
    grows. -/
structure Reading (σ β V : Type) extends Frame σ where
  Reads : World → β → V → Prop
  reads_of_grows : ∀ {w w' x v}, Grows w w' → Reads w x v → Reads w' x v

namespace Reading

variable {σ β V ι : Type} {R : Reading σ β V}

/-- The handles stand for so many values, in order. -/
structure Spells (R : Reading σ β V) (w : R.World) (handles : List β) (count : Nat)
    (value : Nat → V) : Prop where
  length_eq : handles.length = count
  reads : ∀ (i : Nat) (hi : i < handles.length), R.Reads w handles[i] (value i)

theorem Spells.of_grows {w w' : R.World} {handles : List β} {count : Nat} {value : Nat → V}
    (hgrows : R.Grows w w') (h : R.Spells w handles count value) : R.Spells w' handles count value :=
  ⟨h.length_eq, fun i hi => R.reads_of_grows hgrows (h.reads i hi)⟩

theorem Spells.congr {w : R.World} {handles : List β} {count : Nat} {value value' : Nat → V}
    (h : R.Spells w handles count value) (heq : ∀ i < count, value i = value' i) :
    R.Spells w handles count value' :=
  ⟨h.length_eq, fun i hi => heq i (h.length_eq ▸ hi) ▸ h.reads i hi⟩

theorem spells_nil {w : R.World} {value : Nat → V} : R.Spells w [] 0 value :=
  ⟨rfl, fun _ hi => absurd hi (Nat.not_lt_zero _)⟩

theorem spells_cons_iff {w : R.World} {x : β} {handles : List β} {count : Nat} {value : Nat → V} :
    R.Spells w (x :: handles) (count + 1) value ↔
      R.Reads w x (value 0) ∧ R.Spells w handles count fun i => value (i + 1) := by
  constructor
  · rintro ⟨hlength, hreads⟩
    refine ⟨hreads 0 (Nat.succ_pos _), Nat.succ.inj hlength, fun i hi => ?_⟩
    exact hreads (i + 1) (Nat.succ_lt_succ hi)
  · rintro ⟨hx, hlength, hreads⟩
    refine ⟨congrArg Nat.succ hlength, fun i hi => ?_⟩
    cases i with
    | zero => exact hx
    | succ i => exact hreads i (Nat.lt_of_succ_lt_succ hi)

theorem spells_singleton_iff {w : R.World} {x : β} {value : Nat → V} :
    R.Spells w [x] 1 value ↔ R.Reads w x (value 0) := by
  rw [spells_cons_iff]
  exact and_iff_left spells_nil

theorem Spells.append {w : R.World} {xs ys : List β} {m n : Nat} {value value' : Nat → V}
    (hxs : R.Spells w xs m value) (hys : R.Spells w ys n value') :
    R.Spells w (xs ++ ys) (m + n) fun i => if i < m then value i else value' (i - m) := by
  have hlength := hxs.length_eq
  refine ⟨by rw [List.length_append, hlength, hys.length_eq], fun i hi => ?_⟩
  by_cases hlt : i < m
  · rw [if_pos hlt, List.getElem_append_left (by omega)]
    exact hxs.reads i (by omega)
  · rw [List.length_append, hys.length_eq] at hi
    have hshift := hys.reads (i - m) (by have := hys.length_eq; omega)
    rw [if_neg hlt, List.getElem_append_right (by omega)]
    simpa only [hlength] using hshift

theorem Spells.take {w : R.World} {xs : List β} {n : Nat} {value : Nat → V}
    (hxs : R.Spells w xs n value) {k : Nat} (hk : k ≤ n) : R.Spells w (xs.take k) k value := by
  have hlength := hxs.length_eq
  refine ⟨by rw [List.length_take]; omega, fun i hi => ?_⟩
  rw [List.length_take] at hi
  rw [List.getElem_take]
  exact hxs.reads i (by omega)

theorem Spells.drop {w : R.World} {xs : List β} {n : Nat} {value : Nat → V}
    (hxs : R.Spells w xs n value) (k : Nat) :
    R.Spells w (xs.drop k) (n - k) fun i => value (k + i) := by
  refine ⟨by rw [List.length_drop, hxs.length_eq], fun i hi => ?_⟩
  rw [List.length_drop] at hi
  rw [List.getElem_drop]
  exact hxs.reads (k + i) (by omega)

theorem spells_replicate {w : R.World} {x : β} {v : V} (hx : R.Reads w x v) (k : Nat) :
    R.Spells w (List.replicate k x) k fun _ => v := by
  refine ⟨List.length_replicate, fun i hi => ?_⟩
  rw [List.getElem_replicate]
  exact hx

theorem Spells.getElem {w : R.World} {count : Nat} {handles : Vector β count} {value : Nat → V}
    (h : R.Spells w handles.toList count value) (i : Nat) (hi : i < count) :
    R.Reads w handles[i] (value i) := by
  have hreads := h.reads i (h.length_eq.symm ▸ hi)
  rwa [Vector.getElem_toList] at hreads

theorem Spells.push {w : R.World} {count : Nat} {handles : Vector β count} {value : Nat → V} {x : β}
    (h : R.Spells w handles.toList count value) (hx : R.Reads w x (value count)) :
    R.Spells w (handles.push x).toList (count + 1) value := by
  have hlast : R.Spells w [x] 1 fun _ => value count := spells_singleton_iff.mpr hx
  rw [Vector.toList_push]
  apply (h.append hlast).congr
  intro i hi
  by_cases hlt : i < count
  · rw [if_pos hlt]
  · rw [if_neg hlt, show i = count by omega]

/-- Actions that are run one after the other give handles of the values that each of
    them gives by itself. -/
theorem yields_mapM_forall₂ {f : ι → Action σ β} {items : List ι} {values : List V} {w : R.World}
    (hitems : List.Forall₂ (fun item v => ∀ w', R.Grows w w' → R.Yields w' (f item) (R.Reads · · v))
      items values) :
    R.Yields w (items.mapM f) fun w' out => List.Forall₂ (R.Reads w') out values := by
  suffices hlater : ∀ w', R.Grows w w' →
      R.Yields w' (items.mapM f) fun w' out => List.Forall₂ (R.Reads w') out values from
    hlater w (R.grows_refl w)
  induction hitems with
  | nil => exact fun _ _ => .pure .nil
  | @cons item v items values hitem _ ih =>
    intro w' hgrows
    rw [List.mapM_cons]
    refine (hitem w' hgrows).bind fun w₁ x hgrows₁ hx => ?_
    refine (ih w₁ (R.grows_trans hgrows hgrows₁)).bind fun w₂ out hgrows₂ hout => ?_
    exact .pure (.cons (R.reads_of_grows hgrows₂ hx) hout)

theorem spells_iff_forall₂ {w : R.World} {handles : List β} {count : Nat} {value : Nat → V} :
    R.Spells w handles count value ↔
      List.Forall₂ (R.Reads w) handles ((List.range count).map value) := by
  rw [List.forall₂_iff_get]
  constructor
  · rintro ⟨hlength, hreads⟩
    refine ⟨by simp [hlength], fun i hi _ => ?_⟩
    simpa using hreads i hi
  · rintro ⟨hlength, hreads⟩
    have hcount : handles.length = count := by simpa using hlength
    refine ⟨hcount, fun i hi => ?_⟩
    simpa using hreads i hi (by simpa [← hcount] using hi)

/-- Actions that are run one after the other, each for the value at its place, give
    handles that spell these values. -/
theorem yields_mapM {f : ι → Action σ β} {items : List ι} {count : Nat} {value : Nat → V}
    {w : R.World} (hcount : items.length = count)
    (hitems : ∀ (i : Nat) (hi : i < items.length) (w' : R.World), R.Grows w w' →
      R.Yields w' (f items[i]) (R.Reads · · (value i))) :
    R.Yields w (items.mapM f) (R.Spells · · count value) := by
  have hvalues : List.Forall₂
      (fun item v => ∀ w', R.Grows w w' → R.Yields w' (f item) (R.Reads · · v)) items
      ((List.range count).map value) := by
    refine List.forall₂_iff_get.mpr ⟨by simp [hcount], fun i hi _ => ?_⟩
    simpa using hitems i hi
  exact (R.yields_mapM_forall₂ hvalues).imp fun _ _ _ hout => spells_iff_forall₂.mpr hout

/-- The same for a vector of actions, which gives a vector of handles. -/
theorem yields_vector_mapM {f : ι → Action σ β} {items : List ι} {count : Nat} {value : Nat → V}
    {w : R.World} (hcount : items.toArray.size = count)
    (hitems : ∀ (i : Nat) (hi : i < items.length) (w' : R.World), R.Grows w w' →
      R.Yields w' (f items[i]) (R.Reads · · (value i))) :
    R.Yields w ((⟨items.toArray, hcount⟩ : Vector ι count).mapM f)
      fun w' out => R.Spells w' out.toList count value := by
  obtain ⟨handles, w', hexec, hgrows, hhandles⟩ := R.yields_mapM hcount hitems
  have hsame := Action.exec_vector_mapM (f := f) hcount (R.state w)
  rw [hexec] at hsame
  obtain ⟨out, t, hout⟩ : ∃ out t,
      ((⟨items.toArray, hcount⟩ : Vector ι count).mapM f).exec (R.state w) = (out, t) :=
    ⟨_, _, rfl⟩
  rw [hout] at hsame
  obtain ⟨hvector, rfl⟩ := Prod.mk.inj hsame
  cases out with
  | ok out =>
    have htoList : out.toList = handles := congrArg Array.toList (Except.ok.inj hvector)
    rw [← htoList] at hhandles
    exact ⟨out, w', hout, hgrows, hhandles⟩
  | error fault => cases hvector

/-- A reading of the handles of truth values under which constants are what they
    say and the connectives of a backend are those of Boolean algebra. -/
structure Respects {Handle : ValueType → Type} (R : Reading σ (Handle .bool) Bool)
    (b : Backend σ Handle) : Prop where
  constant : ∀ (w : R.World) (v : Bool),
    R.Yields w (b.constant .bool (.bool v)) (R.Reads · · v)
  and : ∀ {w : R.World} {x y : Handle .bool} {u v : Bool}, R.Reads w x u → R.Reads w y v →
    R.Yields w (b.and .bool x y) (R.Reads · · (u && v))
  or : ∀ {w : R.World} {x y : Handle .bool} {u v : Bool}, R.Reads w x u → R.Reads w y v →
    R.Yields w (b.or .bool x y) (R.Reads · · (u || v))
  xor : ∀ {w : R.World} {x y : Handle .bool} {u v : Bool}, R.Reads w x u → R.Reads w y v →
    R.Yields w (b.xor .bool x y) (R.Reads · · (u ^^ v))
  not : ∀ {w : R.World} {x : Handle .bool} {u : Bool}, R.Reads w x u →
    R.Yields w (b.not .bool x) (R.Reads · · !u)

end Reading

end WordCircuit
