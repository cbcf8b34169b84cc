import WordCircuit.Sha256.Compression

namespace WordCircuit.Sha256.Standard

/-- A word of FIPS 180-4. -/
abbrev Word := BitVec 32

def ch (x y z : Word) : Word :=
  (x &&& y) ^^^ (~~~x &&& z)

def maj (x y z : Word) : Word :=
  (x &&& y) ^^^ (x &&& z) ^^^ (y &&& z)

def bigSigma₀ (x : Word) : Word :=
  x.rotateRight 2 ^^^ x.rotateRight 13 ^^^ x.rotateRight 22

def bigSigma₁ (x : Word) : Word :=
  x.rotateRight 6 ^^^ x.rotateRight 11 ^^^ x.rotateRight 25

def smallSigma₀ (x : Word) : Word :=
  x.rotateRight 7 ^^^ x.rotateRight 18 ^^^ x >>> 3

def smallSigma₁ (x : Word) : Word :=
  x.rotateRight 17 ^^^ x.rotateRight 19 ^^^ x >>> 10

/-- The word of the message schedule with number `t`: one of the block, or else
    computed from those 2, 7, 15 and 16 places before it. -/
def scheduleWord (block : Vector Word 16) (t : Nat) : Word :=
  if h : t < 16 then
    block[t]
  else
    smallSigma₁ (scheduleWord block (t - 2)) + scheduleWord block (t - 7) +
      smallSigma₀ (scheduleWord block (t - 15)) + scheduleWord block (t - 16)

theorem scheduleWord_of_lt (block : Vector Word 16) {t : Nat} (h : t < 16) :
    scheduleWord block t = block[t] := by
  rw [scheduleWord, dif_pos h]

theorem scheduleWord_add_sixteen (block : Vector Word 16) (t : Nat) :
    scheduleWord block (16 + t) =
      smallSigma₁ (scheduleWord block (t + 14)) + scheduleWord block (t + 9) +
        smallSigma₀ (scheduleWord block (t + 1)) + scheduleWord block t := by
  rw [scheduleWord, dif_neg (by omega)]
  congr <;> omega

/-- One round with its constant and its word of the schedule. -/
def round (r : Registers Word) (k w : Word) : Registers Word :=
  let t₁ := r.h + bigSigma₁ r.e + ch r.e r.f r.g + k + w
  let t₂ := bigSigma₀ r.a + maj r.a r.b r.c
  ⟨t₁ + t₂, r.a, r.b, r.c, r.d + t₁, r.e, r.f, r.g⟩

/-- The constant of round `t`. -/
def roundConstant (t : Nat) : Word :=
  .ofNat 32 (roundConstants.toList.getD t 0)

/-- The working words after the first `count` rounds. -/
def rounds (block : Vector Word 16) (state : Registers Word) : (count : Nat) → Registers Word
  | 0 => state
  | t + 1 => round (rounds block state t) (roundConstant t) (scheduleWord block t)

/-- The sum of the words in each place. -/
def add (r s : Registers Word) : Registers Word :=
  ⟨r.a + s.a, r.b + s.b, r.c + s.c, r.d + s.d, r.e + s.e, r.f + s.f, r.g + s.g, r.h + s.h⟩

/-- The hash value after a block. -/
def compress (state : Registers Word) (block : Vector Word 16) : Registers Word :=
  add (rounds block state 64) state

end WordCircuit.Sha256.Standard
