import WordCircuit.Proofs.BitSliced.Uniform
import WordCircuit.Proofs.ConstraintSystem.Uniform
import WordCircuit.Proofs.Program.Basic

namespace WordCircuit

open WordCircuit.Action (Couples)

/-- The two backends over one constraint system: the system itself, and words of its
    truth values. -/
inductive Layer where
  | arithmetic
  | sliced

/-- A handle of either layer: a combination, or the bits of a word. -/
inductive Piece where
  | single (x : Combination)
  | word (bits : List Combination)

/-- Two handles of the same form whose combinations differ at most in their constants. -/
inductive Piece.Parallel : Piece → Piece → Prop where
  | single {x x' : Combination} (h : x.Parallel x') : Parallel (.single x) (.single x')
  | word {bits bits' : List Combination} (h : List.Forall₂ Combination.Parallel bits bits') :
      Parallel (.word bits) (.word bits')

namespace Layer

abbrev Handle : Layer → ValueType → Type
  | arithmetic, _ => Combination
  | sliced, ty => BitSliced.Handle Combination ty

def backend (p : Modulus) : (layer : Layer) → Backend ConstraintSystem layer.Handle
  | arithmetic => (Host.arithmetic p).backend
  | sliced => (Host.circuit p).backend

def toPiece : (layer : Layer) → (ty : ValueType) → layer.Handle ty → Piece
  | arithmetic, _, x => .single x
  | sliced, .bool, x => .single x
  | sliced, .u8, bits => .word bits
  | sliced, .u32, bits => .word bits

def ofPiece? : (layer : Layer) → (ty : ValueType) → Piece → Option (layer.Handle ty)
  | arithmetic, _, .single x => some x
  | sliced, .bool, .single x => some x
  | sliced, .u8, .word bits => some bits
  | sliced, .u32, .word bits => some bits
  | _, _, _ => none

/-- The handle at a position, if there is one of the form that the layer needs. -/
def operand (layer : Layer) (ty : ValueType) (pieces : List Piece) (i : Nat) :
    Except Fault (layer.Handle ty) :=
  match pieces[i]?.bind (layer.ofPiece? ty) with
  | some x => .ok x
  | none => .error (.notAnOperand "handle")

def Related : (layer : Layer) → (ty : ValueType) → layer.Handle ty → layer.Handle ty → Prop
  | arithmetic, _ => Combination.Parallel
  | sliced, ty => BitSliced.BitsRelated Combination.Parallel ty

theorem backend_uniform (p : Modulus) (layer : Layer) :
    (layer.backend p).Uniform ConstraintSystem.Parallel layer.Related := by
  have harithmetic := ConstraintSystem.backend_uniform (ConstraintSystem.table p)
  cases layer with
  | arithmetic => exact harithmetic
  | sliced => exact BitSliced.backend_uniform harithmetic _

variable {layer : Layer} {ty : ValueType}

theorem toPiece_parallel_iff {x x' : layer.Handle ty} :
    (layer.toPiece ty x).Parallel (layer.toPiece ty x') ↔ layer.Related ty x x' := by
  have hsingle {x x' : Combination} : (Piece.single x).Parallel (.single x') ↔ x.Parallel x' :=
    ⟨fun | .single h => h, .single⟩
  have hword {bits bits' : List Combination} :
      (Piece.word bits).Parallel (.word bits') ↔ List.Forall₂ Combination.Parallel bits bits' :=
    ⟨fun | .word h => h, .word⟩
  cases layer with
  | arithmetic => exact hsingle
  | sliced =>
    cases ty with
    | bool => exact hsingle.trans ⟨fun h => .cons h .nil, fun h => (List.forall₂_cons.mp h).1⟩
    | u8 => exact hword
    | u32 => exact hword

/-- A layer takes a handle only in the form in which it gives it out. -/
theorem eq_toPiece_of_ofPiece? {piece : Piece} {x : layer.Handle ty}
    (h : layer.ofPiece? ty piece = some x) : piece = layer.toPiece ty x := by
  cases layer <;> cases ty <;> cases piece <;> cases h <;> rfl

theorem operand_eq_ok_iff {pieces : List Piece} {i : Nat} {x : layer.Handle ty} :
    layer.operand ty pieces i = .ok x ↔
      ∃ piece, pieces[i]? = some piece ∧ layer.ofPiece? ty piece = some x := by
  rw [← Option.bind_eq_some_iff, operand]
  cases pieces[i]?.bind (layer.ofPiece? ty) with
  | some found => simp
  | none => simp

theorem related_of_operand {pieces pieces' : List Piece}
    (hpieces : List.Forall₂ Piece.Parallel pieces pieces') {i : Nat} {x x' : layer.Handle ty}
    (hx : layer.operand ty pieces i = .ok x) (hx' : layer.operand ty pieces' i = .ok x') :
    layer.Related ty x x' := by
  obtain ⟨piece, hpiece, hx⟩ := operand_eq_ok_iff.mp hx
  obtain ⟨piece', hpiece', hx'⟩ := operand_eq_ok_iff.mp hx'
  obtain ⟨hi, rfl⟩ := List.getElem?_eq_some_iff.mp hpiece
  obtain ⟨hi', rfl⟩ := List.getElem?_eq_some_iff.mp hpiece'
  have hrelated := hpieces.get hi hi'
  rw [List.get_eq_getElem, List.get_eq_getElem, eq_toPiece_of_ofPiece? hx,
    eq_toPiece_of_ofPiece? hx'] at hrelated
  exact toPiece_parallel_iff.mp hrelated

end Layer

/-- A step of a script on handles that it has made before, which it names by their
    positions. A constant has the value in a slot, which is filled when the script is
    run. -/
inductive ScriptStep where
  | allocBool
  | declare
  | constant (layer : Layer) (ty : ValueType) (slot : Nat)
  | binary (layer : Layer) (op : BinaryOp) (ty : ValueType) (a b : Nat)
  | not (layer : Layer) (ty : ValueType) (a : Nat)
  | shift (layer : Layer) (op : ShiftOp) (ty : ValueType) (a : Nat) (amount : Datum)
  | assertTrue (layer : Layer) (a : Nat)
  | assertEq (layer : Layer) (ty : ValueType) (a b : Nat)
  | decomposeByte (a : Nat)
  /-- Makes a word of bits. -/
  | group (bits : List Nat)
  /-- Takes a bit of a word. -/
  | bit (word : Nat) (i : Nat)

namespace ScriptStep

variable (p : Modulus) (filling : Nat → Datum)

/-- The handles that a step adds to those before it. -/
def run (pieces : List Piece) : ScriptStep → Action ConstraintSystem (List Piece)
  | allocBool => do return [.single (← ConstraintSystem.allocBool)]
  | declare => do return [.single (← ConstraintSystem.fresh)]
  | constant layer ty slot => do
    return [layer.toPiece ty (← (layer.backend p).constant ty (filling slot))]
  | binary layer op ty a b => do
    let x ← layer.operand ty pieces a
    let y ← layer.operand ty pieces b
    return [layer.toPiece ty (← op.run (layer.backend p) ty x y)]
  | not layer ty a => do
    let x ← layer.operand ty pieces a
    return [layer.toPiece ty (← (layer.backend p).not ty x)]
  | shift layer op ty a amount => do
    let x ← layer.operand ty pieces a
    return [layer.toPiece ty (← op.run (layer.backend p) ty x amount)]
  | assertTrue layer a => do
    let x ← layer.operand .bool pieces a
    (layer.backend p).assertTrue x
    return []
  | assertEq layer ty a b => do
    let x ← layer.operand ty pieces a
    let y ← layer.operand ty pieces b
    (layer.backend p).assertEq ty x y
    return []
  | decomposeByte a => do
    let x ← Layer.arithmetic.operand .u8 pieces a
    return [.word (← ConstraintSystem.decomposeByte (ConstraintSystem.table p) x)]
  | group bits => do
    return [.word (← bits.mapM fun i => Layer.arithmetic.operand .bool pieces i)]
  | bit word i => do
    let bits ← Layer.sliced.operand .u8 pieces word
    match bits[i]? with
    | some x => return [.single x]
    | none => throw (.notAnOperand "handle")

variable {p} {pieces pieces' : List Piece} (hpieces : List.Forall₂ Piece.Parallel pieces pieces')

include hpieces

theorem couples_operand (layer : Layer) (ty : ValueType) (i : Nat) :
    Couples ConstraintSystem.Parallel (liftM (layer.operand ty pieces i))
      (liftM (layer.operand ty pieces' i)) (layer.Related ty) :=
  .lift fun _ _ => Layer.related_of_operand hpieces

/-- A step that completes under two fillings of the slots does the same to the system and
    gives the same handles, up to constants. -/
theorem couples_run (filling filling' : Nat → Datum) (step : ScriptStep) :
    Couples ConstraintSystem.Parallel (step.run p filling pieces) (step.run p filling' pieces')
      (List.Forall₂ Piece.Parallel) := by
  cases step with
  | allocBool => exact ConstraintSystem.couples_allocBool.bind fun _ _ h => .pure (.cons (.single h) .nil)
  | declare => exact ConstraintSystem.couples_fresh.bind fun _ _ h => .pure (.cons (.single h) .nil)
  | constant layer ty slot =>
    refine ((layer.backend_uniform p).constant ty _ _).bind fun _ _ h => .pure ?_
    exact .cons (Layer.toPiece_parallel_iff.mpr h) .nil
  | binary layer op ty a b =>
    refine (couples_operand hpieces layer ty a).bind fun _ _ hx => ?_
    refine (couples_operand hpieces layer ty b).bind fun _ _ hy => ?_
    refine ((layer.backend_uniform p).binary op ty hx hy).bind fun _ _ h => .pure ?_
    exact .cons (Layer.toPiece_parallel_iff.mpr h) .nil
  | not layer ty a =>
    refine (couples_operand hpieces layer ty a).bind fun _ _ hx => ?_
    refine ((layer.backend_uniform p).not ty hx).bind fun _ _ h => .pure ?_
    exact .cons (Layer.toPiece_parallel_iff.mpr h) .nil
  | shift layer op ty a amount =>
    refine (couples_operand hpieces layer ty a).bind fun _ _ hx => ?_
    refine ((layer.backend_uniform p).shift op ty amount hx).bind fun _ _ h => .pure ?_
    exact .cons (Layer.toPiece_parallel_iff.mpr h) .nil
  | assertTrue layer a =>
    refine (couples_operand hpieces layer .bool a).bind fun _ _ hx => ?_
    exact ((layer.backend_uniform p).assertTrue hx).bind fun _ _ _ => .pure .nil
  | assertEq layer ty a b =>
    refine (couples_operand hpieces layer ty a).bind fun _ _ hx => ?_
    refine (couples_operand hpieces layer ty b).bind fun _ _ hy => ?_
    exact ((layer.backend_uniform p).assertEq ty hx hy).bind fun _ _ _ => .pure .nil
  | decomposeByte a =>
    refine (couples_operand hpieces .arithmetic .u8 a).bind fun _ _ hx => ?_
    refine (ConstraintSystem.couples_decomposeByte _ hx).bind fun _ _ h => .pure ?_
    exact .cons (.word h) .nil
  | group bits =>
    refine (Couples.mapM_same bits fun i => couples_operand hpieces .arithmetic .bool i).bind ?_
    exact fun _ _ h => .pure (.cons (.word h) .nil)
  | bit word i =>
    refine (couples_operand hpieces .sliced .u8 word).bind fun bits bits' hbits => ?_
    by_cases hi : i < bits.length
    · have hi' : i < bits'.length := hbits.length_eq ▸ hi
      simp only [List.getElem?_eq_getElem hi, List.getElem?_eq_getElem hi']
      exact .pure (.cons (.single (hbits.get hi hi')) .nil)
    · rw [List.getElem?_eq_none (not_lt.mp hi)]
      exact .stop

end ScriptStep

/-- Runs the steps of a script in order, and gives the handles that they have made. -/
def runScript (p : Modulus) (filling : Nat → Datum) (script : List ScriptStep) :
    Action ConstraintSystem (List Piece) :=
  script.foldlM (fun pieces step => do return pieces ++ (← step.run p filling pieces)) []

theorem couples_runScript (p : Modulus) (filling filling' : Nat → Datum) (script : List ScriptStep) :
    Couples ConstraintSystem.Parallel (runScript p filling script) (runScript p filling' script)
      (List.Forall₂ Piece.Parallel) := by
  refine Couples.foldlM .nil fun pieces pieces' step hpieces => ?_
  refine (ScriptStep.couples_run hpieces filling filling' step).bind fun added added' hadded => ?_
  exact .pure (List.rel_append hpieces hadded)

/-- The circuit that a script makes does not depend on its constants. Two runs on a new
    system that differ in what fills the slots, and that both complete, declare the same
    number of variables and pose the same number of constraints, and wherever one has a
    combination, in a constraint or as a handle, the other has one with the same
    coefficients. -/
theorem script_shape_uniform (p : Modulus) (bound : TermBound) (script : List ScriptStep)
    {filling filling' : Nat → Datum} {pieces pieces' : List Piece} {t t' : ConstraintSystem}
    (hrun : (runScript p filling script).exec (.empty p bound) = (.ok pieces, t))
    (hrun' : (runScript p filling' script).exec (.empty p bound) = (.ok pieces', t')) :
    t.numVars = t'.numVars ∧ t.constraints.size = t'.constraints.size ∧
      (∀ (i : Nat) (c d : ProductConstraint), t.constraints[i]? = some c →
        t'.constraints[i]? = some d → c.left.Parallel d.left ∧ c.right.Parallel d.right ∧
          c.result.Parallel d.result) ∧
      List.Forall₂ Piece.Parallel pieces pieces' := by
  have hempty := ConstraintSystem.parallel_refl_empty p bound
  obtain ⟨hsystems, hpieces⟩ := (couples_runScript p filling filling' script).related hempty hrun hrun'
  refine ⟨hsystems.numVars_eq, hsystems.constraints.length_eq, fun i c d hc hd => ?_, hpieces⟩
  obtain ⟨hi, rfl⟩ := Array.getElem?_eq_some_iff.mp hc
  obtain ⟨hi', rfl⟩ := Array.getElem?_eq_some_iff.mp hd
  have hparts := hsystems.constraints.get hi hi'
  exact ⟨hparts.left, hparts.right, hparts.result⟩

/-- Doubles a known byte, and asserts that a bit differs from a known truth value. -/
def doublingScript : List ScriptStep :=
  [.constant .sliced .u8 0, .allocBool, .constant .arithmetic .bool 1, .binary .sliced .xor .bool 1 2,
    .binary .sliced .wrappingAdd .u8 0 0, .assertTrue .sliced 3]

def fiveAndTrue (slot : Nat) : Datum :=
  if slot = 0 then .int 5 else .bool true

def twoHundredAndFalse (slot : Nat) : Datum :=
  if slot = 0 then .int 200 else .bool false

/-- Doubling five and doubling two hundred take the same circuit over the field with seven
    elements, where sums of more than one term are compacted. -/
theorem doublingScript_shape_uniform :
    ∃ pieces t pieces' t',
      (runScript .seven fiveAndTrue doublingScript).exec (.empty .seven (.atMost 1)) =
          (.ok pieces, t) ∧
        (runScript .seven twoHundredAndFalse doublingScript).exec (.empty .seven (.atMost 1)) =
          (.ok pieces', t') ∧
        t.numVars = t'.numVars ∧ t.constraints.size = t'.constraints.size ∧
        List.Forall₂ Piece.Parallel pieces pieces' := by
  have hcompletes {filling : Nat → Datum}
      (hok : ((runScript .seven filling doublingScript).exec (.empty .seven (.atMost 1))).1.isOk = true) :
      ∃ pieces t, (runScript .seven filling doublingScript).exec (.empty .seven (.atMost 1)) =
        (.ok pieces, t) := by
    generalize (runScript .seven filling doublingScript).exec _ = result at hok
    obtain ⟨outcome, t⟩ := result
    cases outcome with
    | ok pieces => exact ⟨pieces, t, rfl⟩
    | error fault => cases hok
  obtain ⟨pieces, t, hrun⟩ := @hcompletes fiveAndTrue (by decide +kernel)
  obtain ⟨pieces', t', hrun'⟩ := @hcompletes twoHundredAndFalse (by decide +kernel)
  obtain ⟨hnumVars, hsize, -, hpieces⟩ := script_shape_uniform .seven (.atMost 1) doublingScript hrun hrun'
  exact ⟨pieces, t, pieces', t', hrun, hrun', hnumVars, hsize, hpieces⟩

end WordCircuit
