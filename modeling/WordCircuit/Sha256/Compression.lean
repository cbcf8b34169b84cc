import WordCircuit.Backend
import WordCircuit.Sha256.Constants
import WordCircuit.Sha256.Padding

namespace WordCircuit.Sha256

/-- The operations on words that the compression function needs. -/
def required : Capability :=
  .and ||| .xor ||| .not ||| .shift ||| .rotate ||| .wrappingAdd

/-- The eight working words. -/
structure Registers (ω : Type) where
  a : ω
  b : ω
  c : ω
  d : ω
  e : ω
  f : ω
  g : ω
  h : ω

def Registers.ofList? {ω : Type} : List ω → Option (Registers ω)
  | [a, b, c, d, e, f, g, h] => some ⟨a, b, c, d, e, f, g, h⟩
  | _ => none

def Registers.toList {ω : Type} (r : Registers ω) : List ω :=
  [r.a, r.b, r.c, r.d, r.e, r.f, r.g, r.h]

/-- A word of a chunk: a known number or a handle. -/
inductive ChunkWord (ω : Type) where
  | literal (n : Int)
  | handle (w : ω)

variable {σ : Type} {Handle : ValueType → Type}

/-- What a word of a chunk is taken for: an integer is a known number, also where
    handles can be integers. -/
def ChunkWord.sort (s : Backend σ Handle) :
    ChunkWord (Handle .u32) → ChunkWord (Handle .u32)
  | .literal n => .literal n
  | .handle w => ((s.integer? w).map .literal).getD (.handle w)

/-- The exclusive or of three rotations. -/
def bigSigma (s : Backend σ Handle) (x : Handle .u32) (r₀ r₁ r₂ : Datum) :
    Action σ (Handle .u32) := do
  let u ← s.rotr .u32 x r₀
  let v ← s.rotr .u32 x r₁
  let t ← s.xor .u32 u v
  s.xor .u32 t (← s.rotr .u32 x r₂)

/-- The exclusive or of two rotations and a shift. -/
def smallSigma (s : Backend σ Handle) (x : Handle .u32) (r₀ r₁ k : Datum) :
    Action σ (Handle .u32) := do
  let u ← s.rotr .u32 x r₀
  let v ← s.rotr .u32 x r₁
  let t ← s.xor .u32 u v
  s.xor .u32 t (← s.shr .u32 x k)

/-- The handle of a word of a chunk; a number becomes a constant. -/
def word (s : Backend σ Handle) (c : ChunkWord (Handle .u32)) : Action σ (Handle .u32) :=
  match c.sort s with
  | .literal n => s.constant .u32 (.int n)
  | .handle w => return w

/-- The message schedule: the words of a chunk and `count` words after them, each
    computed from four that stand 2, 7, 15 and 16 places before it. -/
def schedule (s : Backend σ Handle) (chunk : Vector (Handle .u32) 16) :
    (count : Nat) → Action σ (Vector (Handle .u32) (16 + count))
  | 0 => return chunk
  | i + 1 => do
    let w ← schedule s chunk i
    let s₀ ← smallSigma s w[i + 1] (.int 7) (.int 18) (.int 3)
    let s₁ ← smallSigma s w[i + 14] (.int 17) (.int 19) (.int 10)
    let t ← s.wrappingAdd .u32 w[i] s₀
    let t ← s.wrappingAdd .u32 t w[i + 9]
    let t ← s.wrappingAdd .u32 t s₁
    return w.push t

/-- Where `e` is set the bits of `f`, elsewhere those of `g`. -/
def choice (s : Backend σ Handle) (e f g : Handle .u32) : Action σ (Handle .u32) := do
  let chosen ← s.and .u32 e f
  let other ← s.and .u32 (← s.not .u32 e) g
  s.xor .u32 chosen other

/-- The bits that at least two of the three words have. -/
def majority (s : Backend σ Handle) (a b c : Handle .u32) : Action σ (Handle .u32) := do
  let ab ← s.and .u32 a b
  let ac ← s.and .u32 a c
  let t ← s.xor .u32 ab ac
  s.xor .u32 t (← s.and .u32 b c)

/-- One round with its constant `k` and its word `w` of the schedule. -/
def round (s : Backend σ Handle) (r : Registers (Handle .u32)) (k : Nat) (w : Handle .u32) :
    Action σ (Registers (Handle .u32)) := do
  let s₁ ← bigSigma s r.e (.int 6) (.int 11) (.int 25)
  let ch ← choice s r.e r.f r.g
  let t₁ ← s.wrappingAdd .u32 r.h s₁
  let t₁ ← s.wrappingAdd .u32 t₁ ch
  let t₁ ← s.wrappingAdd .u32 t₁ (← s.constant .u32 (.int k))
  let t₁ ← s.wrappingAdd .u32 t₁ w
  let s₀ ← bigSigma s r.a (.int 2) (.int 13) (.int 22)
  let maj ← majority s r.a r.b r.c
  let t₂ ← s.wrappingAdd .u32 s₀ maj
  let e ← s.wrappingAdd .u32 r.d t₁
  let a ← s.wrappingAdd .u32 t₁ t₂
  return ⟨a, r.a, r.b, r.c, e, r.e, r.f, r.g⟩

/-- The chaining state after a chunk: all rounds, and the sum with the state before.
    It runs on the words of any backend, and the order in which it asks for operations
    is part of its meaning, because a backend may record them. -/
def compress (s : Backend σ Handle) (state : Registers (Handle .u32))
    (chunk : Vector (Handle .u32) 16) : Action σ (List (Handle .u32)) := do
  let w ← schedule s chunk 48
  let rounds := (roundConstants.zip w).toList
  let last ← rounds.foldlM (fun r kw => round s r kw.1 kw.2) state
  (state.toList.zip last.toList).mapM fun words => s.wrappingAdd .u32 words.1 words.2

/-- One compression, once the backend offers what it needs and state and chunk have
    the right lengths. -/
def update (s : Backend σ Handle) (state : List (Handle .u32))
    (chunk : List (ChunkWord (Handle .u32))) : Action σ (List (Handle .u32)) := do
  s.require .u32 required "sha256"
  let some registers := Registers.ofList? state | throw (.stateLength state.length)
  if h : chunk.length = 16 then
    s.note (.compression s.name)
    let words ← (⟨chunk.toArray, h⟩ : Vector _ 16).mapM (word s)
    compress s registers words
  else
    throw (.chunkLength chunk.length)

/-- The initial chaining state as constants. -/
def initial (s : Backend σ Handle) : Action σ (List (Handle .u32)) := do
  s.require .u32 .none "sha256"
  s.constants .u32 (initialWords.map fun (n : Nat) => Datum.int n)

/-- The chaining state after all chunks of a padded message. -/
def hash (s : Backend σ Handle) (message : List UInt8) : Action σ (List (Handle .u32)) := do
  (pad message).foldlM (fun state chunk =>
    update s state (chunk.map fun (n : Nat) => ChunkWord.literal n)) (← initial s)

end WordCircuit.Sha256
