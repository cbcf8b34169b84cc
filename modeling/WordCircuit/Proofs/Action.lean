import WordCircuit.Backend

namespace WordCircuit

theorem bind_eq_ok_iff {ε α β : Type} {x : Except ε α} {f : α → Except ε β} {b : β} :
    x >>= f = .ok b ↔ ∃ a, x = .ok a ∧ f a = .ok b := by
  cases x <;> simp [Bind.bind, Except.bind]

theorem bind_eq_error_iff {ε α β : Type} {x : Except ε α} {f : α → Except ε β} {e : ε} :
    x >>= f = .error e ↔ x = .error e ∨ ∃ a, x = .ok a ∧ f a = .error e := by
  cases x <;> simp [Bind.bind, Except.bind]

namespace Action

variable {σ α β : Type}

/-- The outcome of an action that starts from a state, with the state that it
    leaves behind. -/
def exec (act : Action σ α) (s : σ) : Except Fault α × σ :=
  StateT.run (ExceptT.run act) s

@[simp] theorem exec_pure (a : α) (s : σ) : (pure a : Action σ α).exec s = (.ok a, s) :=
  rfl

@[simp] theorem exec_throw (fault : Fault) (s : σ) :
    (throw fault : Action σ α).exec s = (.error fault, s) :=
  rfl

@[simp] theorem exec_get (s : σ) : (get : Action σ σ).exec s = (.ok s, s) :=
  rfl

@[simp] theorem exec_modify (f : σ → σ) (s : σ) :
    (modify f : Action σ Unit).exec s = (.ok (), f s) :=
  rfl

@[simp] theorem exec_liftM (x : Except Fault α) (s : σ) :
    (liftM x : Action σ α).exec s = (x, s) :=
  rfl

theorem exec_bind (act : Action σ α) (next : α → Action σ β) (s : σ) :
    (act >>= next).exec s =
      match act.exec s with
      | (.ok a, t) => (next a).exec t
      | (.error fault, t) => (.error fault, t) := by
  simp only [exec, ExceptT.run_bind, StateT.run_bind]
  generalize StateT.run (ExceptT.run act) s = result
  obtain ⟨outcome, t⟩ := result
  cases outcome <;> rfl

theorem exec_bind_of_ok {act : Action σ α} {next : α → Action σ β} {s t : σ} {a : α}
    (hact : act.exec s = (.ok a, t)) : (act >>= next).exec s = (next a).exec t := by
  rw [exec_bind, hact]

theorem exec_bind_of_error {act : Action σ α} {next : α → Action σ β} {s t : σ} {fault : Fault}
    (hact : act.exec s = (.error fault, t)) : (act >>= next).exec s = (.error fault, t) := by
  rw [exec_bind, hact]

theorem exec_bind_eq_ok_iff {act : Action σ α} {next : α → Action σ β} {s u : σ} {b : β} :
    (act >>= next).exec s = (.ok b, u) ↔
      ∃ a t, act.exec s = (.ok a, t) ∧ (next a).exec t = (.ok b, u) := by
  rw [exec_bind]
  obtain ⟨outcome, t⟩ := act.exec s
  cases outcome with
  | ok a =>
    refine ⟨fun h => ⟨a, t, rfl, h⟩, ?_⟩
    rintro ⟨_, _, heq, h⟩
    cases heq
    exact h
  | error fault => simp

theorem exec_map (f : α → β) (act : Action σ α) (s : σ) :
    (f <$> act).exec s = (Except.map f (act.exec s).1, (act.exec s).2) := by
  rw [map_eq_pure_bind, exec_bind]
  obtain ⟨outcome, t⟩ := act.exec s
  cases outcome <;> rfl

/-- To act on the elements of a vector is to act on those of the list that it is made of. -/
theorem exec_vector_mapM {ι : Type} {f : ι → Action σ α} {items : List ι} {count : Nat}
    (hcount : items.toArray.size = count) (s : σ) :
    (Except.map Vector.toArray (((⟨items.toArray, hcount⟩ : Vector ι count).mapM f).exec s).1,
        (((⟨items.toArray, hcount⟩ : Vector ι count).mapM f).exec s).2) =
      (Except.map List.toArray ((items.mapM f).exec s).1, ((items.mapM f).exec s).2) := by
  rw [← exec_map, ← exec_map, Vector.toArray_mapM, List.mapM_toArray]

theorem exec_vector_mapM_of_error {ι : Type} {f : ι → Action σ α} {items : List ι} {count : Nat}
    (hcount : items.toArray.size = count) {s t : σ} {fault : Fault}
    (hitems : (items.mapM f).exec s = (.error fault, t)) :
    ((⟨items.toArray, hcount⟩ : Vector ι count).mapM f).exec s = (.error fault, t) := by
  have hsame := exec_vector_mapM (f := f) hcount s
  rw [hitems] at hsame
  obtain ⟨hresult, hstate⟩ := Prod.mk.inj hsame
  refine Prod.ext ?_ hstate
  cases hout : (((⟨items.toArray, hcount⟩ : Vector ι count).mapM f).exec s).1 with
  | ok out =>
    rw [hout] at hresult
    cases hresult
  | error fault' =>
    rw [hout] at hresult
    obtain rfl := Except.error.inj hresult
    rfl

theorem liftM_bind_of_ok {x : Except Fault α} {a : α} (hx : x = .ok a) (next : α → Action σ β) :
    (liftM x : Action σ α) >>= next = next a := by
  rw [hx]
  rfl

/-- What comes after a check matters only where the check passes. -/
theorem liftM_bind_congr {x : Except Fault α} {next next' : α → Action σ β}
    (h : ∀ a, x = .ok a → next a = next' a) :
    (liftM x : Action σ α) >>= next = (liftM x : Action σ α) >>= next' := by
  cases x with
  | ok a =>
    rw [liftM_bind_of_ok rfl next, liftM_bind_of_ok rfl next']
    exact h a rfl
  | error fault => rfl

theorem exec_liftM_bind_of_ok {x : Except Fault α} {next : α → Action σ β} {a : α}
    (hx : x = .ok a) (s : σ) : ((liftM x : Action σ α) >>= next).exec s = (next a).exec s := by
  rw [liftM_bind_of_ok hx]

/-- Two actions succeed from the same states, and then they leave the same state
    behind and give results in the relation. -/
structure Agrees (act : Action σ α) (act' : Action σ β) (R : α → β → Prop) : Prop where
  forth : ∀ {s t a}, act.exec s = (.ok a, t) → ∃ b, act'.exec s = (.ok b, t) ∧ R a b
  back : ∀ {s t b}, act'.exec s = (.ok b, t) → ∃ a, act.exec s = (.ok a, t) ∧ R a b

theorem agrees_refl (act : Action σ α) : Agrees act act Eq :=
  ⟨fun h => ⟨_, h, rfl⟩, fun h => ⟨_, h, rfl⟩⟩

theorem agrees_pure {R : α → β → Prop} {a : α} {b : β} (h : R a b) :
    Agrees (pure a : Action σ α) (pure b) R :=
  ⟨fun hexec => by cases hexec; exact ⟨b, rfl, h⟩, fun hexec => by cases hexec; exact ⟨a, rfl, h⟩⟩

theorem Agrees.bind {γ δ : Type} {act : Action σ α} {act' : Action σ β} {R : α → β → Prop}
    (hact : Agrees act act' R) {next : α → Action σ γ} {next' : β → Action σ δ} {S : γ → δ → Prop}
    (hnext : ∀ a b, R a b → Agrees (next a) (next' b) S) :
    Agrees (act >>= next) (act' >>= next') S := by
  constructor
  · intro s t c h
    obtain ⟨a, u, hexec, h⟩ := exec_bind_eq_ok_iff.mp h
    obtain ⟨b, hexec', hab⟩ := hact.forth hexec
    obtain ⟨d, hlast, hcd⟩ := (hnext a b hab).forth h
    exact ⟨d, exec_bind_eq_ok_iff.mpr ⟨b, u, hexec', hlast⟩, hcd⟩
  · intro s t d h
    obtain ⟨b, u, hexec', h⟩ := exec_bind_eq_ok_iff.mp h
    obtain ⟨a, hexec, hab⟩ := hact.back hexec'
    obtain ⟨c, hlast, hcd⟩ := (hnext a b hab).back h
    exact ⟨c, exec_bind_eq_ok_iff.mpr ⟨a, u, hexec, hlast⟩, hcd⟩

/-- A check that passes on one side alone makes no difference. -/
theorem Agrees.check_left {γ : Type} {x : Except Fault γ} {c : γ} (hx : x = .ok c)
    {next : γ → Action σ α} {act' : Action σ β} {R : α → β → Prop} (h : Agrees (next c) act' R) :
    Agrees ((liftM x : Action σ γ) >>= next) act' R := by
  constructor
  · intro s t a hexec
    rw [exec_liftM_bind_of_ok hx] at hexec
    exact h.forth hexec
  · intro s t b hexec
    rw [exec_liftM_bind_of_ok hx]
    exact h.back hexec

theorem Agrees.check_right {γ : Type} {x : Except Fault γ} {c : γ} (hx : x = .ok c)
    {act : Action σ α} {next : γ → Action σ β} {R : α → β → Prop} (h : Agrees act (next c) R) :
    Agrees act ((liftM x : Action σ γ) >>= next) R := by
  constructor
  · intro s t a hexec
    rw [exec_liftM_bind_of_ok hx]
    exact h.forth hexec
  · intro s t b hexec
    rw [exec_liftM_bind_of_ok hx] at hexec
    exact h.back hexec

theorem exec_liftM_bind_ne_ok {x : Except Fault α} {fault : Fault} (hx : x = .error fault)
    (next : α → Action σ β) (s : σ) (b : β) (t : σ) :
    ((liftM x : Action σ α) >>= next).exec s ≠ (.ok b, t) := by
  rw [exec_bind_of_error (by rw [exec_liftM, hx])]
  exact fun h => nomatch h

/-- Actions that never succeed agree on whatever they would give. -/
theorem agrees_of_never {act : Action σ α} {act' : Action σ β} {R : α → β → Prop}
    (h : ∀ s a t, act.exec s ≠ (.ok a, t)) (h' : ∀ s b t, act'.exec s ≠ (.ok b, t)) :
    Agrees act act' R :=
  ⟨fun hexec => absurd hexec (h _ _ _), fun hexec => absurd hexec (h' _ _ _)⟩

theorem exec_discard_of_error {act : Action σ α} {s t : σ} {fault : Fault}
    (hact : act.exec s = (.error fault, t)) : (Functor.discard act).exec s = (.error fault, t) := by
  have hdiscard : (Functor.discard act).exec s =
      (Except.map (fun _ => ()) (act.exec s).1, (act.exec s).2) := exec_map _ act s
  rw [hdiscard, hact]
  rfl

/-- From the state the action stops at a fault of the kind, and it leaves the state as it was. -/
def Refuses (act : Action σ α) (s : σ) (kind : Fault.Kind) : Prop :=
  ∃ fault, act.exec s = (.error fault, s) ∧ fault.kind = kind

theorem refuses_of_error {x : Except Fault α} {fault : Fault} (hx : x = .error fault) (s : σ) :
    (liftM x : Action σ α).Refuses s fault.kind :=
  ⟨fault, by rw [exec_liftM, hx], rfl⟩

namespace Refuses

variable {act : Action σ α} {next : α → Action σ β} {s : σ} {kind : Fault.Kind}

/-- What comes after a refusal is not reached. -/
theorem bind (h : act.Refuses s kind) (next : α → Action σ β) : (act >>= next).Refuses s kind := by
  obtain ⟨fault, hexec, hkind⟩ := h
  exact ⟨fault, exec_bind_of_error hexec, hkind⟩

/-- What comes before a refusal has to leave the state alone. -/
theorem after {a : α} (hact : act.exec s = (.ok a, s)) (h : (next a).Refuses s kind) :
    (act >>= next).Refuses s kind := by
  obtain ⟨fault, hexec, hkind⟩ := h
  exact ⟨fault, (exec_bind_of_ok hact).trans hexec, hkind⟩

theorem map (h : act.Refuses s kind) (f : α → β) : (f <$> act).Refuses s kind := by
  rw [map_eq_pure_bind]
  exact h.bind _

theorem discard (h : act.Refuses s kind) : (Functor.discard act).Refuses s kind := by
  obtain ⟨fault, hexec, hkind⟩ := h
  exact ⟨fault, exec_discard_of_error hexec, hkind⟩

end Refuses

end Action

end WordCircuit
