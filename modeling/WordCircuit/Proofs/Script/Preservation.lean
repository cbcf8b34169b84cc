import WordCircuit.Proofs.BitSliced.Preservation
import WordCircuit.Proofs.Script

namespace WordCircuit

open WordCircuit.Frame (Keeps)

/-- The combinations that a handle consists of. -/
def Piece.combinations : Piece → List Combination
  | single x => [x]
  | word bits => bits

variable {F : Frame ConstraintSystem} {Fits : F.World → Combination → Prop} {p : Modulus}

namespace Layer

theorem combinations_toPiece_sliced (ty : ValueType) (x : Layer.sliced.Handle ty) :
    (Layer.sliced.toPiece ty x).combinations = BitSliced.bits ty x := by
  cases ty <;> rfl

/-- What the system keeps of its combinations, either layer over it keeps of its handles. -/
theorem backend_keeps
    (h : (ConstraintSystem.backend (ConstraintSystem.table p)).Keeps F fun w _ => Fits w)
    (layer : Layer) :
    (layer.backend p).Keeps F fun w ty x => ∀ c ∈ (layer.toPiece ty x).combinations, Fits w c := by
  cases layer with
  | arithmetic =>
    have hsingle : (fun (w : F.World) (ty : ValueType) (x : Combination) =>
        ∀ c ∈ (arithmetic.toPiece ty x).combinations, Fits w c) = fun w _ => Fits w := by
      funext w ty x
      exact propext List.forall_mem_singleton
    rw [hsingle]
    exact h
  | sliced =>
    simp only [combinations_toPiece_sliced]
    exact BitSliced.backend_keeps h _

theorem forall_of_operand {P : Combination → Prop} {pieces : List Piece} {layer : Layer}
    {ty : ValueType} (hpieces : ∀ piece ∈ pieces, ∀ c ∈ piece.combinations, P c) {i : Nat}
    {x : layer.Handle ty} (hx : layer.operand ty pieces i = .ok x) :
    ∀ c ∈ (layer.toPiece ty x).combinations, P c := by
  obtain ⟨piece, hpiece, hform⟩ := operand_eq_ok_iff.mp hx
  rw [← eq_toPiece_of_ofPiece? hform]
  exact hpieces piece (List.mem_of_getElem? hpiece)

end Layer

namespace ScriptStep

/-- The step neither asserts anything nor takes a byte apart. -/
def isCircuit : ScriptStep → Bool
  | assertTrue _ _ | assertEq _ _ _ _ | decomposeByte _ => false
  | _ => true

/-- The step declares an input. -/
def isInput : ScriptStep → Bool
  | allocBool | declare => true
  | _ => false

variable (h : (ConstraintSystem.backend (ConstraintSystem.table p)).Keeps F fun w _ => Fits w)
  {filling : Nat → Datum} {w : F.World} {pieces : List Piece}
  (hpieces : ∀ piece ∈ pieces, ∀ c ∈ piece.combinations, Fits w c)

include h hpieces

/-- The bits that are taken together to a word are handles that are there already. -/
theorem keeps_group (bits : List Nat) :
    F.Keeps w (bits.mapM fun i => liftM (Layer.arithmetic.operand .bool pieces i))
      fun w' word => ∀ c ∈ word, Fits w' c := by
  have hgrows {u v : F.World} {c : Combination} : F.Grows u v → Fits u c → Fits v c :=
    @h.fits_of_grows u v .bool c
  apply Keeps.mapM (P := Fits) (R := fun u _ => ∀ piece ∈ pieces, ∀ c ∈ piece.combinations, Fits u c)
  · exact fun huv hall piece hmem c hc => hgrows huv (hall piece hmem c hc)
  · exact hgrows
  · intro u i hall
    apply Keeps.lift
    intro x hx
    exact List.forall_mem_singleton.mp (Layer.forall_of_operand hall hx)
  · exact fun _ _ => hpieces

/-- Steps that combine handles keep what the operations keep, and they make handles that fit. -/
theorem keeps_run {step : ScriptStep} (hcircuit : step.isCircuit = true) (hinput : step.isInput = false) :
    F.Keeps w (step.run p filling pieces)
      fun w' added => ∀ piece ∈ added, ∀ c ∈ piece.combinations, Fits w' c := by
  have hreturn {layer : Layer} {ty : ValueType} {w : F.World}
      {act : Action ConstraintSystem (layer.Handle ty)}
      (hact : F.Keeps w act fun w' x => ∀ c ∈ (layer.toPiece ty x).combinations, Fits w' c) :
      F.Keeps w (do return [layer.toPiece ty (← act)])
        fun w' added => ∀ piece ∈ added, ∀ c ∈ piece.combinations, Fits w' c :=
    hact.bind fun _ _ _ hx => .pure (List.forall_mem_singleton.mpr hx)
  have hoperand {layer : Layer} {ty : ValueType} {i : Nat} {x : layer.Handle ty}
      (hx : layer.operand ty pieces i = .ok x) : ∀ c ∈ (layer.toPiece ty x).combinations, Fits w c :=
    Layer.forall_of_operand hpieces hx
  cases step with
  | allocBool => cases hinput
  | declare => cases hinput
  | constant layer ty slot => exact hreturn ((layer.backend_keeps h).constant ty _)
  | binary layer op ty a b =>
    refine .after_check fun x hx => .after_check fun y hy => ?_
    exact hreturn ((layer.backend_keeps h).binary op ty (hoperand hx) (hoperand hy))
  | not layer ty a =>
    refine .after_check fun x hx => ?_
    exact hreturn ((layer.backend_keeps h).not ty (hoperand hx))
  | shift layer op ty a amount =>
    refine .after_check fun x hx => ?_
    exact hreturn ((layer.backend_keeps h).shift op ty amount (hoperand hx))
  | assertTrue layer a => cases hcircuit
  | assertEq layer ty a b => cases hcircuit
  | decomposeByte a => cases hcircuit
  | group bits =>
    refine (keeps_group h hpieces bits).bind fun w' word _ hword => ?_
    apply Keeps.pure
    exact List.forall_mem_singleton.mpr hword
  | bit word i =>
    refine .after_check fun bits hbits => ?_
    have hword : ∀ c ∈ bits, Fits w c := hoperand hbits
    cases hbit : bits[i]? with
    | some x =>
      apply Keeps.pure
      have hx : Fits w x := hword x (List.mem_of_getElem? hbit)
      exact List.forall_mem_singleton.mpr (List.forall_mem_singleton.mpr hx)
    | none => exact ⟨w, rfl, F.grows_refl w, fun _ h => nomatch h⟩

end ScriptStep

/-- What the steps of a script have made so far: handles, inputs by their variables, and the
    system. -/
structure Construction where
  pieces : List Piece
  inputs : List Nat
  system : ConstraintSystem

namespace Construction

/-- Takes one more step. A step that stops at a fault makes no handle, but the construction may
    go on from the system that it has left behind. -/
def perform (p : Modulus) (filling : Nat → Datum) (c : Construction) (step : ScriptStep) :
    Construction :=
  let result := (step.run p filling c.pieces).exec c.system
  { pieces := match result.1 with
      | .ok added => c.pieces ++ added
      | .error _ => c.pieces
    inputs := if step.isInput then c.inputs ++ [c.system.numVars] else c.inputs
    system := result.2 }

/-- What a script makes from nothing. -/
def ofScript (p : Modulus) (bound : TermBound) (filling : Nat → Datum) (script : List ScriptStep) :
    Construction :=
  script.foldl (perform p filling) ⟨[], [], .empty p bound⟩

theorem foldl_perform_of_exec {p : Modulus} {filling : Nat → Datum} {script : List ScriptStep}
    {pieces : List Piece} {t : ConstraintSystem} {c : Construction}
    (h : (script.foldlM (fun pieces step => do return pieces ++ (← step.run p filling pieces))
      c.pieces : Action ConstraintSystem (List Piece)).exec c.system = (.ok pieces, t)) :
    (script.foldl (perform p filling) c).pieces = pieces ∧
      (script.foldl (perform p filling) c).system = t := by
  induction script generalizing c with
  | nil =>
    obtain ⟨hpieces, hsystem⟩ := Prod.mk.inj h
    exact ⟨Except.ok.inj hpieces, hsystem⟩
  | cons step rest ih =>
    rw [List.foldlM_cons, Action.exec_bind_eq_ok_iff] at h
    obtain ⟨next, u, hstep, hrest⟩ := h
    obtain ⟨added, u', hadded, hnext⟩ := Action.exec_bind_eq_ok_iff.mp hstep
    obtain ⟨hpieces, rfl⟩ := Prod.mk.inj hnext
    obtain rfl := Except.ok.inj hpieces
    rw [List.foldl_cons]
    apply ih
    rw [perform, hadded]
    exact hrest

/-- A script that completes makes the same handles and the same system. -/
theorem ofScript_of_runScript {p : Modulus} {bound : TermBound} {filling : Nat → Datum}
    {script : List ScriptStep} {pieces : List Piece} {t : ConstraintSystem}
    (hrun : (runScript p filling script).exec (.empty p bound) = (.ok pieces, t)) :
    (ofScript p bound filling script).pieces = pieces ∧ (ofScript p bound filling script).system = t :=
  foldl_perform_of_exec hrun

/-- What a step keeps, a construction keeps that takes it, whatever comes of it. -/
theorem perform_keeps
    (h : (ConstraintSystem.backend (ConstraintSystem.table p)).Keeps F fun w _ => Fits w)
    {filling : Nat → Datum} {c : Construction} {step : ScriptStep} {w : F.World}
    (hstate : F.state w = c.system) (hpieces : ∀ piece ∈ c.pieces, ∀ x ∈ piece.combinations, Fits w x)
    (hrun : F.Keeps w (step.run p filling c.pieces)
      fun w' added => ∀ piece ∈ added, ∀ x ∈ piece.combinations, Fits w' x) :
    ∃ w', F.state w' = (c.perform p filling step).system ∧ F.Grows w w' ∧
      ∀ piece ∈ (c.perform p filling step).pieces, ∀ x ∈ piece.combinations, Fits w' x := by
  obtain ⟨w', hsystem, hw', hadded⟩ := hrun
  rw [hstate] at hsystem hadded
  have hbefore : ∀ piece ∈ c.pieces, ∀ x ∈ piece.combinations, Fits w' x := by
    intro piece hmem x hx
    exact @h.fits_of_grows w w' .bool x hw' (hpieces piece hmem x hx)
  refine ⟨w', hsystem.symm, hw', ?_⟩
  simp only [perform]
  cases houtcome : ((step.run p filling c.pieces).exec c.system).1 with
  | ok added => exact List.forall_mem_append.mpr ⟨hbefore, hadded added houtcome⟩
  | error fault => exact hbefore

end Construction

end WordCircuit
