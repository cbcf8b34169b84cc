import WordCircuit.Proofs.Operation
import WordCircuit.Proofs.Reading

namespace WordCircuit

/-- What the handles of all types stand for in each world, as bit vectors. -/
structure Interpretation (σ : Type) (Handle : ValueType → Type) extends Frame σ where
  Reads : World → (ty : ValueType) → Handle ty → BitVec ty.width → Prop
  reads_of_grows : ∀ {w w' ty x v}, Grows w w' → Reads w ty x v → Reads w' ty x v

namespace Interpretation

variable {σ : Type} {Handle : ValueType → Type} {I : Interpretation σ Handle}

/-- On the type the operations of a backend are those on bit vectors, and they
    refuse what those refuse. -/
structure Models (I : Interpretation σ Handle) (b : Backend σ Handle) (ty : ValueType) : Prop where
  constant : ∀ (w : I.World) (d : Datum),
    I.Follows w (b.constant ty d) (I.Reads · ty) (ty.value d)
  binary : ∀ (op : BinaryOp) {w : I.World} {x y : Handle ty} {u v : BitVec ty.width},
    I.Reads w ty x u → I.Reads w ty y v →
      I.Follows w (op.run b ty x y) (I.Reads · ty) (op.value ty u v)
  not : ∀ {w : I.World} {x : Handle ty} {u : BitVec ty.width}, I.Reads w ty x u →
    I.Yields w (b.not ty x) (I.Reads · ty · (~~~u))
  shift : ∀ (op : ShiftOp) {w : I.World} {x : Handle ty} {u : BitVec ty.width} (amount : Datum),
    I.Reads w ty x u →
      I.Follows w (op.run b ty x amount) (I.Reads · ty) (op.value ty u amount)

/-- The interpretation with further ways for the worlds to grow, as long as handles
    keep what they stand for. -/
abbrev widen (I : Interpretation σ Handle) (Grows : I.World → I.World → Prop)
    (hrefl : ∀ w, Grows w w) (htrans : ∀ u v w, Grows u v → Grows v w → Grows u w)
    (hreads : ∀ w w' ty x v, Grows w w' → I.Reads w ty x v → I.Reads w' ty x v) :
    Interpretation σ Handle where
  toFrame := I.toFrame.widen Grows hrefl htrans
  Reads := I.Reads
  reads_of_grows := hreads _ _ _ _ _

theorem Models.widen {b : Backend σ Handle} {ty : ValueType} (h : I.Models b ty)
    {Grows : I.World → I.World → Prop} {hrefl : ∀ w, Grows w w}
    {htrans : ∀ u v w, Grows u v → Grows v w → Grows u w}
    {hreads : ∀ w w' ty x v, Grows w w' → I.Reads w ty x v → I.Reads w' ty x v}
    (hgrows : ∀ w w', I.Grows w w' → Grows w w') :
    (I.widen Grows hrefl htrans hreads).Models b ty where
  constant w d := (h.constant w d).widen (hgrows _)
  binary op _ _ _ _ _ hx hy := (h.binary op hx hy).widen (hgrows _)
  not hx := (h.not hx).widen (hgrows _)
  shift op _ _ _ amount hx := (h.shift op amount hx).widen (hgrows _)

/-- What the handles of truth values stand for. -/
abbrev truthReading (I : Interpretation σ Handle) : Reading σ (Handle .bool) Bool where
  toFrame := I.toFrame
  Reads w x b := I.Reads w .bool x (.ofBool b)
  reads_of_grows := I.reads_of_grows

/-- Operations that are those on bit vectors are those of Boolean algebra on vectors
    of one bit. -/
theorem Models.respects {b : Backend σ Handle} (h : I.Models b .bool) :
    I.truthReading.Respects b where
  constant w v := by
    have hfollows := h.constant w (.bool v)
    rwa [show ValueType.bool.value (.bool v) = .ok (.ofBool v) by cases v <;> rfl] at hfollows
  and {w x y u v} hx hy := by
    have hfollows := h.binary .and hx hy
    have hvalue : BinaryOp.and.value .bool (.ofBool u) (.ofBool v) = .ok (.ofBool (u && v)) :=
      congrArg Except.ok BitVec.ofBool_and_ofBool
    rwa [hvalue] at hfollows
  or {w x y u v} hx hy := by
    have hfollows := h.binary .or hx hy
    have hvalue : BinaryOp.or.value .bool (.ofBool u) (.ofBool v) = .ok (.ofBool (u || v)) :=
      congrArg Except.ok BitVec.ofBool_or_ofBool
    rwa [hvalue] at hfollows
  xor {w x y u v} hx hy := by
    have hfollows := h.binary .xor hx hy
    have hvalue : BinaryOp.xor.value .bool (.ofBool u) (.ofBool v) = .ok (.ofBool (u ^^ v)) :=
      congrArg Except.ok BitVec.ofBool_xor_ofBool
    rwa [hvalue] at hfollows
  not {w x u} hx := by
    have hyields := h.not hx
    have hvalue : (~~~(.ofBool u) : BitVec ValueType.bool.width) = .ofBool !u := BitVec.not_ofBool
    rwa [hvalue] at hyields

end Interpretation

namespace Frame

variable {σ α β : Type} {F : Frame σ} {w : F.World} {act : Action σ α} {Q : F.World → α → β → Prop}

theorem Follows.of_yields {v : β} (h : F.Yields w act (Q · · v)) : F.Follows w act Q (.ok v) :=
  h

/-- Actions that are run one after the other do what is expected of both. -/
theorem Follows.bind {γ δ : Type} {P : F.World → α → β → Prop} {R : F.World → γ → δ → Prop}
    {expected : Except Fault.Kind β} {next : α → Action σ γ} {further : β → Except Fault.Kind δ}
    (hact : F.Follows w act P expected)
    (hnext : ∀ w' a v, F.Grows w w' → P w' a v → F.Follows w' (next a) R (further v)) :
    F.Follows w (act >>= next) R (expected >>= further) := by
  cases expected with
  | error kind =>
    obtain ⟨fault, s, hexec, hkind⟩ := hact
    exact ⟨fault, s, Action.exec_bind_of_error hexec, hkind⟩
  | ok v =>
    obtain ⟨a, w', hexec, hgrows, ha⟩ := hact
    have hlast := hnext w' a v hgrows ha
    change F.Follows w (act >>= next) R (further v)
    cases hfurther : further v with
    | ok u =>
      rw [hfurther] at hlast
      obtain ⟨c, w'', hexec', hgrows', hc⟩ := hlast
      exact ⟨c, w'', (Action.exec_bind_of_ok hexec).trans hexec', F.grows_trans hgrows hgrows', hc⟩
    | error kind =>
      rw [hfurther] at hlast
      obtain ⟨fault, s, hexec', hkind⟩ := hlast
      exact ⟨fault, s, (Action.exec_bind_of_ok hexec).trans hexec', hkind⟩

theorem Follows.check {γ : Type} {x : Except Fault γ} {c : γ} {next : γ → Action σ α}
    {expected : Except Fault.Kind β} (hx : x = .ok c) (hnext : F.Follows w (next c) Q expected) :
    F.Follows w ((liftM x : Action σ γ) >>= next) Q expected := by
  cases expected with
  | ok v => exact Yields.check hx hnext
  | error kind =>
    obtain ⟨fault, s, hexec, hkind⟩ := hnext
    exact ⟨fault, s, (Action.exec_liftM_bind_of_ok hx _).trans hexec, hkind⟩

/-- A check that fails stops the action at its fault. -/
theorem Follows.of_error {γ : Type} {x : Except Fault γ} {fault : Fault} (hx : x = .error fault)
    (next : γ → Action σ α) :
    F.Follows w ((liftM x : Action σ γ) >>= next) Q (.error fault.kind) :=
  ⟨fault, F.state w, Action.exec_bind_of_error (by rw [hx, Action.exec_liftM]), rfl⟩

/-- An action that succeeds was expected to, and what it gives is as expected. -/
theorem Follows.of_exec {expected : Except Fault.Kind β} {a : α} {s : σ}
    (h : F.Follows w act Q expected) (hexec : act.exec (F.state w) = (.ok a, s)) :
    ∃ v w', expected = .ok v ∧ F.state w' = s ∧ F.Grows w w' ∧ Q w' a v := by
  cases expected with
  | ok v =>
    obtain ⟨b, w', hexec', hgrows, hb⟩ := h
    obtain ⟨hab, rfl⟩ := Prod.mk.inj (hexec'.symm.trans hexec)
    obtain rfl := Except.ok.inj hab
    exact ⟨v, w', rfl, rfl, hgrows, hb⟩
  | error kind =>
    obtain ⟨fault, t, hexec', -⟩ := h
    cases hexec'.symm.trans hexec

end Frame

end WordCircuit
