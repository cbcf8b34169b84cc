namespace WordCircuit.Text

/-- The last `digits` hexadecimal digits of a number, in lower case. -/
def hexDigits : (digits : Nat) → Nat → String
  | 0, _ => ""
  | digits + 1, n => (hexDigits digits (n / 16)).push (Nat.digitChar (n % 16))

/-- Two hexadecimal digits for each octet. -/
def hex (octets : List UInt8) : String :=
  String.join (octets.map fun octet => hexDigits 2 octet.toNat)

end WordCircuit.Text
