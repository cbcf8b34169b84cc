import WordCircuit.Proofs.Sha256.Simulation

namespace WordCircuit

/-- Another form for handles, from which each handle can be told again. -/
structure Coding (Handle Code : ValueType → Type) where
  encode : {ty : ValueType} → Handle ty → Code ty
  decode : {ty : ValueType} → Code ty → Handle ty
  decode_encode : ∀ {ty : ValueType} (x : Handle ty), decode (encode x) = x
  /-- The integer that the form of a word is. -/
  integer? : Code .u32 → Option Int

section Recode

variable {σ : Type} {Handle Code : ValueType → Type}

/-- The backend behind handles of another form. -/
def Backend.recode (b : Backend σ Handle) (C : Coding Handle Code) : Backend σ Code where
  name := b.name
  table := b.table
  note := b.note
  integer? := C.integer?
  constant ty value := C.encode <$> b.constant ty value
  and ty x y := C.encode <$> b.and ty (C.decode x) (C.decode y)
  xor ty x y := C.encode <$> b.xor ty (C.decode x) (C.decode y)
  not ty x := C.encode <$> b.not ty (C.decode x)
  or ty x y := C.encode <$> b.or ty (C.decode x) (C.decode y)
  shl ty x amount := C.encode <$> b.shl ty (C.decode x) amount
  shr ty x amount := C.encode <$> b.shr ty (C.decode x) amount
  rotl ty x amount := C.encode <$> b.rotl ty (C.decode x) amount
  rotr ty x amount := C.encode <$> b.rotr ty (C.decode x) amount
  wrappingAdd ty x y := C.encode <$> b.wrappingAdd ty (C.decode x) (C.decode y)
  checkedAdd ty x y := C.encode <$> b.checkedAdd ty (C.decode x) (C.decode y)
  assertTrue x := b.assertTrue (C.decode x)
  assertEq ty x y := b.assertEq ty (C.decode x) (C.decode y)

namespace Reading

open Sha256.Standard (Word)

variable {R : Reading σ (Handle .u32) Word} {b : Backend σ Handle} (C : Coding Handle Code)

/-- A form stands for what its handle stands for. -/
abbrev recode (R : Reading σ (Handle .u32) Word) (C : Coding Handle Code) :
    Reading σ (Code .u32) Word where
  toFrame := R.toFrame
  Reads w x v := R.Reads w (C.decode x) v
  reads_of_grows := R.reads_of_grows

theorem yields_encode {w : R.World} {act : Action σ (Handle .u32)} {v : Word}
    (h : R.Yields w act (R.Reads · · v)) :
    (R.recode C).Yields w (C.encode <$> act) ((R.recode C).Reads · · v) := by
  obtain ⟨x, w', hexec, hgrows, hx⟩ := h
  refine ⟨C.encode x, w', ?_, hgrows, ?_⟩
  · rw [Action.exec_map, hexec]
    rfl
  · change R.Reads w' (C.decode (C.encode x)) v
    rwa [C.decode_encode]

/-- Whether a backend simulates direct evaluation does not depend on the form of its
    handles. -/
theorem SimulatesDirect.recode (h : R.SimulatesDirect b) :
    (R.recode C).SimulatesDirect (b.recode C) where
  offers := h.offers
  note := h.note
  constant w n _ hr := yields_encode C (h.constant w n hr)
  and hx hy hr := yields_encode C (h.and hx hy hr)
  xor hx hy hr := yields_encode C (h.xor hx hy hr)
  not hx hr := yields_encode C (h.not hx hr)
  rotr k hx hr := yields_encode C (h.rotr k hx hr)
  shr k hx hr := yields_encode C (h.shr k hx hr)
  wrappingAdd hx hy hr := yields_encode C (h.wrappingAdd hx hy hr)

end Reading

end Recode

/-- The complement of an integer, which has the other sign. -/
def Datum.complement : Datum → Datum
  | .int n => .int (-1 - n)
  | d => d

theorem Datum.complement_complement (d : Datum) : d.complement.complement = d := by
  cases d with
  | int n => exact congrArg Datum.int (by omega)
  | _ => rfl

/-- Values with complements in the place of integers, which are integers as well. -/
def Coding.complements : Coding (fun _ => Datum) (fun _ => Datum) where
  encode := Datum.complement
  decode := Datum.complement
  decode_encode := Datum.complement_complement
  integer? := Datum.plainInteger?

end WordCircuit
