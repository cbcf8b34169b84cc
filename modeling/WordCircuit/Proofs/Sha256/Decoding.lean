import WordCircuit.Proofs.Sha256.PaddedMessage

namespace WordCircuit.Sha256

/-- What is left of padded octets without the eight octets of the length, the zeros before them
    and the end mark. -/
def unpadded (octets : List UInt8) : List UInt8 :=
  ((octets.reverse.drop 8).dropWhile (· == 0)).tail.reverse

theorem dropWhile_replicate_zero_append (count : Nat) (rest : List UInt8) :
    (List.replicate count 0 ++ rest).dropWhile (· == 0) = rest.dropWhile (· == 0) := by
  apply List.dropWhile_append_of_pos
  intro octet hoctet
  rw [List.eq_of_mem_replicate hoctet]
  rfl

/-- From the end on, the first octet that is not zero is the end mark, whatever the message
    ends in. -/
theorem unpadded_padOctets (message : List UInt8) : unpadded (padOctets message) = message := by
  have hlength : (toBigEndian 8 (8 * message.length)).reverse.length = 8 := by
    rw [List.length_reverse, length_toBigEndian]
  have hreverse : (padOctets message).reverse.drop 8 =
      List.replicate (zeroCount message.length) 0 ++ 0x80 :: message.reverse := by
    rw [padOctets, List.reverse_append, List.drop_append_of_le_length hlength.ge,
      List.drop_of_length_le hlength.le, List.nil_append, List.reverse_append, List.reverse_cons,
      List.reverse_replicate, List.append_assoc, List.singleton_append]
  have hmark : (0x80 :: message.reverse).dropWhile (· == 0) = 0x80 :: message.reverse := rfl
  rw [unpadded, hreverse, dropWhile_replicate_zero_append, hmark, List.tail_cons, List.reverse_reverse]

/-- A message can be read off its chunks, so no two messages have the same. -/
theorem pad_injective : Function.Injective pad := by
  intro message other hpad
  have hoctets : padOctets message = padOctets other := by
    rw [← flatMap_toBigEndian_pad, hpad, flatMap_toBigEndian_pad]
  rw [← unpadded_padOctets message, hoctets, unpadded_padOctets]

theorem pad_ne_nil (message : List UInt8) : pad message ≠ [] := by
  apply List.ne_nil_of_length_pos
  rw [length_pad, length_padOctets, zeroCount]
  omega

/-- The length of the message stands at the end of the last chunk. -/
theorem lengthOctets_suffix_of_getLast? {message : List UInt8} {last : List Nat}
    (hlast : (pad message).getLast? = some last) :
    toBigEndian 8 (8 * message.length) <:+ last.flatMap (toBigEndian 4) := by
  obtain ⟨before, hpad⟩ := List.getLast?_eq_some_iff.mp hlast
  have hsixteen : last.length = 16 := by
    have hmem : last ∈ pad message := by
      rw [hpad]
      exact List.mem_concat_self
    exact (words_of_mem_pad hmem).1
  have hlength : (last.flatMap (toBigEndian 4)).length = 64 := by
    rw [List.length_flatMap]
    simp [length_toBigEndian, hsixteen]
  have hchunk : last.flatMap (toBigEndian 4) <:+ padOctets message := by
    refine ⟨before.flatten.flatMap (toBigEndian 4), ?_⟩
    rw [← flatMap_toBigEndian_pad, hpad, List.flatten_append, List.flatMap_append, List.flatten_singleton]
  have hfield : toBigEndian 8 (8 * message.length) <:+ padOctets message := by
    rw [padOctets]
    exact List.suffix_append _ _
  refine List.suffix_of_suffix_length_le hfield hchunk ?_
  rw [hlength, length_toBigEndian]
  omega

/-- As long as the length field does not wrap, the last chunk tells the length of the message. -/
theorem length_eq_of_getLast?_eq {message other : List UInt8} (hmessage : message.length < 2 ^ 61)
    (hother : other.length < 2 ^ 61) (hlast : (pad message).getLast? = (pad other).getLast?) :
    message.length = other.length := by
  obtain ⟨last, hsome⟩ := Option.isSome_iff_exists.mp (List.getLast?_isSome.mpr (pad_ne_nil message))
  have hfield := lengthOctets_suffix_of_getLast? hsome
  have hfield' := lengthOctets_suffix_of_getLast? (hlast.symm.trans hsome)
  have hoctets : toBigEndian 8 (8 * message.length) = toBigEndian 8 (8 * other.length) := by
    have hlength : (toBigEndian 8 (8 * message.length)).length =
        (toBigEndian 8 (8 * other.length)).length := by
      rw [length_toBigEndian, length_toBigEndian]
    exact (List.suffix_of_suffix_length_le hfield hfield' hlength.le).eq_of_length hlength
  have hnumbers := congrArg fromBigEndian hoctets
  rw [fromBigEndian_toBigEndian, fromBigEndian_toBigEndian] at hnumbers
  omega

/-- Padding can be taken back: different messages of any lengths have different chunks. Where the
    length field does not wrap, the chunks of one message do not even end in those of another,
    and the last chunk alone tells messages of different lengths apart. -/
theorem pad_decodable_and_suffix_free (message other : List UInt8) :
    (pad message = pad other → message = other) ∧
      (message.length < 2 ^ 61 → other.length < 2 ^ 61 →
        (message ≠ other → ¬pad message <:+ pad other) ∧
          (message.length ≠ other.length → (pad message).getLast? ≠ (pad other).getLast?)) := by
  refine ⟨fun hpad => pad_injective hpad, fun hmessage hother => ⟨?_, ?_⟩⟩
  · intro hne hsuffix
    have hlast : (pad message).getLast? = (pad other).getLast? := by
      obtain ⟨before, hbefore⟩ := hsuffix
      rw [← hbefore, List.getLast?_append_of_ne_nil _ (pad_ne_nil message)]
    have hlength := length_eq_of_getLast?_eq hmessage hother hlast
    have hcount : (pad message).length = (pad other).length := by
      rw [length_pad_eq_ceilDiv, length_pad_eq_ceilDiv, hlength]
    exact hne (pad_injective (hsuffix.eq_of_length hcount))
  · intro hne hlast
    exact hne (length_eq_of_getLast?_eq hmessage hother hlast)

/-- The empty message is not taken for the end of the message that consists of its padding. -/
theorem paddedEmpty_decodable_and_suffix_free :
    ¬pad [] <:+ pad (padOctets []) ∧ (pad []).getLast? ≠ (pad (padOctets [])).getLast? := by
  have hlength : (padOctets []).length = 64 := by decide
  have hdecodable := pad_decodable_and_suffix_free [] (padOctets [])
  obtain ⟨hsuffix, hlast⟩ := hdecodable.2 (by decide) (by omega)
  constructor
  · apply hsuffix
    intro hempty
    rw [← hempty] at hlength
    cases hlength
  · apply hlast
    rw [hlength, List.length_nil]
    omega

end WordCircuit.Sha256
