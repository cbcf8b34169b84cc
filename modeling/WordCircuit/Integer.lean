namespace WordCircuit.Integer

/-- The bits of `m` that `n` lacks. -/
def without (m n : Nat) : Nat :=
  m ^^^ (m &&& n)

/-- Conjunction of the bits of integers of either sign, in two's complement: an integer
    below zero has infinitely many leading ones, and `negSucc n` is the complement
    of `n`. -/
def and : Int → Int → Int
  | .ofNat m, .ofNat n => .ofNat (m &&& n)
  | .ofNat m, .negSucc n => .ofNat (without m n)
  | .negSucc m, .ofNat n => .ofNat (without n m)
  | .negSucc m, .negSucc n => .negSucc (m ||| n)

/-- Disjunction in two's complement. -/
def or : Int → Int → Int
  | .ofNat m, .ofNat n => .ofNat (m ||| n)
  | .ofNat m, .negSucc n => .negSucc (without n m)
  | .negSucc m, .ofNat n => .negSucc (without m n)
  | .negSucc m, .negSucc n => .negSucc (m &&& n)

/-- Exclusive or in two's complement. -/
def xor : Int → Int → Int
  | .ofNat m, .ofNat n => .ofNat (m ^^^ n)
  | .ofNat m, .negSucc n => .negSucc (m ^^^ n)
  | .negSucc m, .ofNat n => .negSucc (m ^^^ n)
  | .negSucc m, .negSucc n => .ofNat (m ^^^ n)

/-- The lowest `width` bits, as a number that is not negative. -/
def low (width : Nat) (n : Int) : Int :=
  n % (1 <<< width : Nat)

/-- Multiplication by a power of two. -/
def shiftLeft (n : Int) (amount : Nat) : Int :=
  n * (1 <<< amount : Nat)

/-- Division by a power of two, rounded towards the smaller integer. -/
def shiftRight (n : Int) (amount : Nat) : Int :=
  n >>> amount

end WordCircuit.Integer
