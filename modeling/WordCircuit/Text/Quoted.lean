import WordCircuit.Text.Hex
import WordCircuit.Text.Visible

namespace WordCircuit.Text

/-- The escape of a character without visible form: the shortest of the three
    numeric forms that holds its code point. -/
def numericEscape (c : Char) : String :=
  if c.toNat < 256 then "\\x" ++ hexDigits 2 c.toNat
  else if c.toNat < 65536 then "\\u" ++ hexDigits 4 c.toNat
  else "\\U" ++ hexDigits 8 c.toNat

/-- One character inside the quotes `mark`. -/
def escape (mark c : Char) : String :=
  if c = mark ∨ c = '\\' then String.ofList ['\\', c]
  else if c = '\n' then "\\n"
  else if c = '\r' then "\\r"
  else if c = '\t' then "\\t"
  else if isVisible c then c.toString
  else numericEscape c

/-- Single quotes, unless the text has a single quote and no double one. -/
def quoteMark (text : List Char) : Char :=
  if text.contains '\'' && !text.contains '"' then '"' else '\''

/-- A text between quotes, written so that it can be read back. -/
def quoted (text : String) : String :=
  let mark := quoteMark text.toList
  (text.toList.foldl (fun written c => written ++ escape mark c) mark.toString).push mark

/-- One octet inside the quotes `mark`: as a character if that is a visible one
    of ASCII, else by its number. -/
def escapeOctet (mark : Char) (octet : UInt8) : String :=
  let c := Char.ofNat octet.toNat
  if c.toNat < 127 then escape mark c else numericEscape c

/-- Octets between quotes, marked by a leading letter. -/
def quotedOctets (octets : List UInt8) : String :=
  let mark := quoteMark (octets.map fun octet => Char.ofNat octet.toNat)
  (octets.foldl (fun written octet => written ++ escapeOctet mark octet)
    ("b" ++ mark.toString)).push mark

end WordCircuit.Text
