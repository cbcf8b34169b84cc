namespace WordCircuit.Sha256

/-- The number of octets in a chunk. -/
def chunkOctets : Nat := 64

/-- The number that octets stand for, most significant first. -/
def fromBigEndian (octets : List UInt8) : Nat :=
  octets.foldl (fun n octet => 256 * n + octet.toNat) 0

/-- The lowest `count` octets of a number, most significant first. -/
def toBigEndian : (count : Nat) → Nat → List UInt8
  | 0, _ => []
  | count + 1, n => toBigEndian count (n / 256) ++ [n.toUInt8]

/-- The number of zero octets between the end mark and the length of a message:
    the least that fills the last chunk. -/
def zeroCount (length : Nat) : Nat :=
  (119 - length % 64) % 64

/-- A message with its padding: an octet with the highest bit set as end mark, zeros,
    and the length in bits as a number of 64 bits. -/
def padOctets (message : List UInt8) : List UInt8 :=
  message ++ 0x80 :: List.replicate (zeroCount message.length) 0 ++
    toBigEndian 8 (8 * message.length)

/-- The first `count` of the consecutive pieces of `size` elements. -/
def firstPieces {α : Type} (size : Nat) : (count : Nat) → List α → List (List α)
  | 0, _ => []
  | count + 1, items => items.take size :: firstPieces size count (items.drop size)

/-- A list in consecutive pieces of `size` elements. -/
def pieces {α : Type} (size : Nat) (items : List α) : List (List α) :=
  firstPieces size (items.length / size) items

/-- The chunks of a padded message, each as sixteen words. -/
def pad (message : List UInt8) : List (List Nat) :=
  (pieces chunkOctets (padOctets message)).map fun chunk => (pieces 4 chunk).map fromBigEndian

end WordCircuit.Sha256
