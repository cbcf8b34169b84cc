import Mathlib.Data.Nat.Find
import WordCircuit.Proofs.Bits
import WordCircuit.Proofs.Sha256.Standard

namespace WordCircuit.Sha256.Standard

/-- The bits of a word of any width in the order of the standard, the most significant
    one first. -/
def bitString {width : Nat} (v : BitVec width) : List Bool :=
  (List.range width).map v.getMsbD

/-- A message in octets as the string of its bits. -/
def octetBits (octets : List UInt8) : List Bool :=
  octets.flatMap fun octet => bitString octet.toBitVec

/-- There are numbers of zeros that fill the last block up to its last 64 bits. -/
theorem exists_zeros (length : Nat) : ∃ k, (length + 1 + k) % 512 = 448 :=
  ⟨959 - length % 512, by omega⟩

/-- The number of zeros between the end mark and the length of a message of so many
    bits: the least that fills the last block up to its last 64 bits. -/
def zeroBits (length : Nat) : Nat :=
  Nat.find (exists_zeros length)

/-- The padded message: the message, a one as end mark, zeros, and the length of the
    message as a number of 64 bits. Longer messages have no hash value. -/
def padded (message : List Bool) (hlength : message.length < 2 ^ 64) : List Bool :=
  message ++ true :: List.replicate (zeroBits message.length) false ++
    bitString (.ofNatLT message.length hlength : BitVec 64)

/-- The word whose most significant bit is the one at `start`. -/
def wordAt (bits : List Bool) (start : Nat) : Word :=
  Bits.word fun k => bits.getD (start + (31 - k)) false

/-- The sixteen words of block `i`. -/
def block (bits : List Bool) (i : Nat) : Vector Word 16 :=
  .ofFn fun j => wordAt bits (512 * i + 32 * j)

def initialWord (i : Nat) : Word :=
  .ofNat 32 (initialWords.getD i 0)

/-- The hash value before the first block. -/
def initialHash : Registers Word :=
  ⟨initialWord 0, initialWord 1, initialWord 2, initialWord 3, initialWord 4, initialWord 5,
    initialWord 6, initialWord 7⟩

/-- The hash value after the first `count` blocks. -/
def chain (bits : List Bool) : (count : Nat) → Registers Word
  | 0 => initialHash
  | i + 1 => compress (chain bits i) (block bits i)

/-- The hash value of a message: that after all blocks of 512 bits of the padded
    message. -/
def hash (message : List Bool) (hlength : message.length < 2 ^ 64) : Registers Word :=
  chain (padded message hlength) ((padded message hlength).length / 512)

/-- The four octets of a word, the most significant one first. -/
def wordOctets (w : Word) : List UInt8 :=
  [24, 16, 8, 0].map fun start => .ofBitVec (w.extractLsb' start 8)

/-- The message digest: the words of the hash value, one after the other. -/
def digest (message : List Bool) (hlength : message.length < 2 ^ 64) : List UInt8 :=
  (hash message hlength).toList.flatMap wordOctets

end WordCircuit.Sha256.Standard
