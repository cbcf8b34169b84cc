import WordCircuit.ConstraintSystem.Gates
import WordCircuit.Direct
import WordCircuit.Proofs.BitSliced.Interpretation

namespace WordCircuit

/-- A handle among those that a program has built so far, of which the latest comes
    first. -/
inductive Ref : List ValueType → ValueType → Type where
  | here {Γ : List ValueType} {ty : ValueType} : Ref (ty :: Γ) ty
  | there {Γ : List ValueType} {ty other : ValueType} (r : Ref Γ ty) : Ref (other :: Γ) ty

/-- What stands for each handle of a program. -/
def Env (Handle : ValueType → Type) (Γ : List ValueType) : Type :=
  (ty : ValueType) → Ref Γ ty → Handle ty

namespace Env

variable {Handle : ValueType → Type} {Γ : List ValueType} {ty : ValueType}

def empty : Env Handle [] :=
  fun _ r => nomatch r

def push (env : Env Handle Γ) (x : Handle ty) : Env Handle (ty :: Γ)
  | _, .here => x
  | _, .there r => env _ r

theorem map_push_there (env : Env Handle Γ) (x : Handle ty) {other : ValueType}
    (refs : List (Ref Γ other)) :
    (refs.map .there).map (env.push x other) = refs.map (env other) :=
  List.map_map

end Env

/-- The value of each type that a handle stands for. -/
abbrev Value (ty : ValueType) : Type :=
  BitVec ty.width

/-- The truth value as a bit vector. -/
def Value.ofBool (b : Bool) : Value .bool :=
  BitVec.ofBool b

theorem Value.getLsbD_ofBool (b : Bool) : (Value.ofBool b).getLsbD 0 = b := by
  cases b <;> rfl

theorem Value.forall_getLsbD_iff {ty : ValueType} {u v : Value ty} :
    (∀ i < ty.width, u.getLsbD i = v.getLsbD i) ↔ u = v :=
  ⟨fun h => BitVec.eq_of_getLsbD_eq h, fun h _ _ => h ▸ rfl⟩

/-- A step that builds a handle of type `ty` from handles of the same type, or from a
    known value. -/
inductive Operation (Γ : List ValueType) (ty : ValueType) where
  | constant (value : Datum)
  | binary (op : BinaryOp) (a b : Ref Γ ty)
  | not (a : Ref Γ ty)
  | shift (op : ShiftOp) (a : Ref Γ ty) (amount : Datum)

namespace Operation

variable {σ : Type} {Handle : ValueType → Type} {Γ : List ValueType} {ty : ValueType}

def run (b : Backend σ Handle) (env : Env Handle Γ) : Operation Γ ty → Action σ (Handle ty)
  | constant value => b.constant ty value
  | binary op x y => op.run b ty (env ty x) (env ty y)
  | not x => b.not ty (env ty x)
  | shift op x amount => op.run b ty (env ty x) amount

/-- What the step gives on bit vectors. -/
def value (values : Env Value Γ) : Operation Γ ty → Except Fault.Kind (Value ty)
  | constant value => ty.value value
  | binary op x y => op.value ty (values ty x) (values ty y)
  | not x => .ok (~~~(values ty x))
  | shift op x amount => op.value ty (values ty x) amount

/-- The step is one that every backend takes: constants and amounts are in range, and
    only words are moved and added. -/
def Accepted : Operation Γ ty → Prop
  | constant value => ∃ canonical, ty.validate value = .ok canonical
  | binary .wrappingAdd _ _ => ty.isWord = true
  | binary _ _ _ => True
  | not _ => True
  | shift op _ amount => ty.isWord = true ∧ ∃ k, ty.shiftAmount amount op.isRotation = .ok k

theorem Accepted.exists_value {op : Operation Γ ty} (haccepted : op.Accepted)
    (values : Env Value Γ) : ∃ v, op.value values = .ok v := by
  cases op with
  | constant d =>
    obtain ⟨canonical, hvalidate⟩ := haccepted
    exact ⟨_, by rw [value, ValueType.value, hvalidate]⟩
  | binary op x y =>
    cases op with
    | and => exact ⟨_, rfl⟩
    | or => exact ⟨_, rfl⟩
    | xor => exact ⟨_, rfl⟩
    | wrappingAdd => exact ⟨_, if_pos haccepted⟩
  | not x => exact ⟨_, rfl⟩
  | shift op x amount =>
    obtain ⟨hword, k, hamount⟩ := haccepted
    exact ⟨_, by rw [value, ShiftOp.value, if_pos hword, hamount]⟩

end Operation

/-- The handles stand for the values. -/
def Interpretation.ReadsAll {σ : Type} {Handle : ValueType → Type} (I : Interpretation σ Handle)
    (w : I.World) {Γ : List ValueType} (env : Env Handle Γ) (values : Env Value Γ) : Prop :=
  ∀ (ty : ValueType) (r : Ref Γ ty), I.Reads w ty (env ty r) (values ty r)

namespace Interpretation

variable {σ : Type} {Handle : ValueType → Type} {I : Interpretation σ Handle} {w : I.World}
  {Γ : List ValueType} {ty : ValueType} {env : Env Handle Γ} {values : Env Value Γ}

theorem ReadsAll.push (henv : I.ReadsAll w env values) {x : Handle ty} {v : Value ty}
    (hx : I.Reads w ty x v) : I.ReadsAll w (env.push x) (values.push v) := by
  intro other r
  cases r with
  | here => exact hx
  | there r => exact henv other r

theorem ReadsAll.of_grows {w' : I.World} (hgrows : I.Grows w w') (henv : I.ReadsAll w env values) :
    I.ReadsAll w' env values :=
  fun ty r => I.reads_of_grows hgrows (henv ty r)

/-- A step of a program does on handles what it does on bit vectors. -/
theorem ReadsAll.follows (henv : I.ReadsAll w env values) {b : Backend σ Handle}
    (hmodels : I.Models b ty) (op : Operation Γ ty) :
    I.Follows w (op.run b env) (I.Reads · ty) (op.value values) := by
  cases op with
  | constant value => exact hmodels.constant w value
  | binary op x y => exact hmodels.binary op (henv ty x) (henv ty y)
  | not x => exact hmodels.not (henv ty x)
  | shift op x amount => exact hmodels.shift op amount (henv ty x)

end Interpretation

/-- A straight-line program that has built handles of the types in `Γ`, the latest
    first. It takes bits as inputs, groups bits into values, builds handles from
    handles, and asserts. -/
inductive Program : List ValueType → Type where
  | start : Program []
  | input {Γ : List ValueType} (P : Program Γ) : Program (.bool :: Γ)
  | group {Γ : List ValueType} (P : Program Γ) (ty : ValueType) (bits : Fin ty.width → Ref Γ .bool) :
      Program (ty :: Γ)
  | operation {Γ : List ValueType} {ty : ValueType} (P : Program Γ) (op : Operation Γ ty) :
      Program (ty :: Γ)
  | assertTrue {Γ : List ValueType} (P : Program Γ) (a : Ref Γ .bool) : Program Γ
  | assertEq {Γ : List ValueType} {ty : ValueType} (P : Program Γ) (a b : Ref Γ ty) : Program Γ

/-- What a program needs besides the operations of a backend: where its inputs come
    from, by their number, and how bits become a value. -/
structure Host (σ : Type) (Handle : ValueType → Type) where
  backend : Backend σ Handle
  input : Nat → Action σ (Handle .bool)
  group : (ty : ValueType) → (Fin ty.width → Handle .bool) → Action σ (Handle ty)

namespace Program

variable {σ : Type} {Handle : ValueType → Type} {Γ : List ValueType}

/-- The handles of the inputs, in the order in which they are taken. -/
def inputs {Γ : List ValueType} : Program Γ → List (Ref Γ .bool)
  | start => []
  | input P => P.inputs.map .there ++ [.here]
  | group P _ _ => P.inputs.map .there
  | operation P _ => P.inputs.map .there
  | assertTrue P _ => P.inputs
  | assertEq P _ _ => P.inputs

/-- Runs the steps in order, up to the first that stops. -/
def run (host : Host σ Handle) {Γ : List ValueType} : Program Γ → Action σ (Env Handle Γ)
  | start => return .empty
  | input P => do
    let env ← P.run host
    return env.push (← host.input P.inputs.length)
  | group P ty bits => do
    let env ← P.run host
    return env.push (← host.group ty fun i => env .bool (bits i))
  | operation P op => do
    let env ← P.run host
    return env.push (← op.run host.backend env)
  | assertTrue P a => do
    let env ← P.run host
    host.backend.assertTrue (env .bool a)
    return env
  | @assertEq _ ty P a b => do
    let env ← P.run host
    host.backend.assertEq ty (env ty a) (env ty b)
    return env

/-- Each step is one that every backend takes. Assertions may fail nevertheless. -/
def Accepted {Γ : List ValueType} : Program Γ → Prop
  | start => True
  | input P => P.Accepted
  | group P _ _ => P.Accepted
  | operation P op => P.Accepted ∧ op.Accepted
  | assertTrue P _ => P.Accepted
  | assertEq P _ _ => P.Accepted

/-- The values of all handles for given input bits, whatever is asserted of them. -/
def values (bits : Nat → Bool) {Γ : List ValueType} :
    Program Γ → Except Fault.Kind (Env Value Γ)
  | start => .ok .empty
  | input P => do
    let values ← P.values bits
    return values.push (Value.ofBool (bits P.inputs.length))
  | group P ty refs => do
    let values ← P.values bits
    return values.push (Bits.word fun i => (values .bool (refs i)).getLsbD 0 : Value ty)
  | operation P op => do
    let values ← P.values bits
    return values.push (← op.value values)
  | assertTrue P _ => P.values bits
  | assertEq P _ _ => P.values bits

/-- All that is asserted is true of the values. -/
def Holds (bits : Nat → Bool) {Γ : List ValueType} : Program Γ → Prop
  | start => True
  | input P => P.Holds bits
  | group P _ _ => P.Holds bits
  | operation P _ => P.Holds bits
  | assertTrue P a => P.Holds bits ∧ ∀ values, P.values bits = .ok values → values .bool a = 1
  | @assertEq _ ty P a b =>
    P.Holds bits ∧ ∀ values, P.values bits = .ok values → values ty a = values ty b

end Program

namespace Host

/-- Direct evaluation on given input bits. -/
def direct (bits : Nat → Bool) : Host Journal fun _ => Datum where
  backend := Direct.backend Direct.table
  input k := return .bool (bits k)
  group
    | .bool, handles => return handles ⟨0, Nat.one_pos⟩
    | _, handles => do return .int (← Bits.decode (List.ofFn handles))

/-- The constraint system over a modulus, which has truth values only. -/
def arithmetic (p : Modulus) : Host ConstraintSystem fun _ => Combination where
  backend := ConstraintSystem.backend (ConstraintSystem.table p)
  input _ := ConstraintSystem.allocBool
  group
    | .bool, handles => return handles ⟨0, Nat.one_pos⟩
    | _, _ => throw .unimplemented

/-- Words over the constraint system, as lists of their bits. -/
def circuit (p : Modulus) : Host ConstraintSystem (BitSliced.Handle Combination) where
  backend := BitSliced.backend (arithmetic p).backend (BitSliced.table (arithmetic p).backend)
  input _ := ConstraintSystem.allocBool
  group
    | .bool, bits => return bits ⟨0, Nat.one_pos⟩
    | .u8, bits => return List.ofFn bits
    | .u32, bits => return List.ofFn bits

/-- The backend of circuits is what slicing of the constraint system gives. -/
theorem wrap_arithmetic (p : Modulus) :
    BitSliced.wrap (arithmetic p).backend = .ok (circuit p).backend :=
  BitSliced.wrap_of_supports _ (Table.supports_of_offered rfl (by decide))

end Host

end WordCircuit
