import WordCircuit.Number.Shortest

namespace WordCircuit

/-- A number as callers write it: an integer of any size, or a floating-point number. -/
inductive Number where
  | int (n : Int)
  | float (x : Float)

namespace Number

def toFloat : Number → Float
  | .int n => Float.ofInt n
  | .float x => x

/-- Combines two integers exactly, and all other pairs as floating-point numbers. -/
def combine (onIntegers : Int → Int → Int) (onFloats : Float → Float → Float) :
    Number → Number → Number
  | .int m, .int n => .int (onIntegers m n)
  | a, b => .float (onFloats a.toFloat b.toFloat)

def add : Number → Number → Number :=
  combine (fun m n => m + n) fun x y => x + y

def sub : Number → Number → Number :=
  combine (fun m n => m - n) fun x y => x - y

def mul : Number → Number → Number :=
  combine (fun m n => m * n) fun x y => x * y

def neg : Number → Number
  | .int n => .int (-n)
  | .float x => .float (-x)

/-- The remainder that is not negative, for a divisor that is greater than zero. -/
def mod : Number → Number → Number :=
  combine (fun m n => m % n) floatRemainder

/-- Whether two numbers have the same value. An integer is not rounded for that. -/
def same : Number → Number → Bool
  | .int m, .int n => m == n
  | .int m, .float y => integerOfFloat y == some m
  | .float x, .int n => integerOfFloat x == some n
  | .float x, .float y => x == y

def display : Number → String
  | .int n => toString n
  | .float x => floatText x

end Number

end WordCircuit
