import WordCircuit.Proofs.Sha256.Backends
import WordCircuit.Proofs.Sha256.Recoding
import WordCircuit.Trace

namespace WordCircuit

theorem exists_forall₂ {α β : Type} {P : α → β → Prop} {xs : List α} (h : ∀ x ∈ xs, ∃ y, P x y) :
    ∃ ys, List.Forall₂ P xs ys := by
  induction xs with
  | nil => exact ⟨[], .nil⟩
  | cons x xs ih =>
    obtain ⟨y, hy⟩ := h x List.mem_cons_self
    obtain ⟨ys, hys⟩ := ih fun x' hx' => h x' (List.mem_cons_of_mem _ hx')
    exact ⟨y :: ys, .cons hy hys⟩

namespace Sha256

open ConstraintSystem
open Standard (Word)

/-- The number of a word of a chunk, as a handle gives it once it is decoded. -/
def ChunkWord.number {ω : Type} (decode : ω → Except Fault Nat) : ChunkWord ω → Except Fault Nat
  | .literal n => .ok n.toNat
  | .handle x => decode x

/-- A number is one of 32 bits, and a handle is as `P` says. -/
def ChunkWord.Valid {ω : Type} (P : ω → Prop) : ChunkWord ω → Prop
  | .literal n => 0 ≤ n ∧ n < 2 ^ 32
  | .handle x => P x

theorem ChunkWord.Valid.imp {ω : Type} {P Q : ω → Prop} {c : ChunkWord ω} (h : c.Valid P)
    (himp : ∀ x, P x → Q x) : c.Valid Q := by
  cases c with
  | literal n => exact h
  | handle x => exact himp x h

theorem ChunkWord.Valid.and {ω : Type} {P Q : ω → Prop} {c : ChunkWord ω} (hP : c.Valid P)
    (hQ : c.Valid Q) : c.Valid fun x => P x ∧ Q x := by
  cases c with
  | literal n => exact hP
  | handle x => exact ⟨hP, hQ⟩

/-- Direct evaluation takes the state over the block to the words of `out`. -/
def DirectlyUpdates (state block out : List Nat) : Prop :=
  ∀ j, ∃ j', (update (Direct.backend Direct.table) (state.map fun (n : Nat) => Datum.int n)
    (block.map fun (n : Nat) => .literal n)).exec j = (.ok (out.map fun (n : Nat) => Datum.int n), j')

/-- The handles decode to eight words, which direct evaluation gives on what the state
    and the chunk decode to. -/
def DecodesDirectly {ω : Type} (decode : ω → Except Fault Nat) (state : List ω)
    (chunk : List (ChunkWord ω)) (result : List ω) : Prop :=
  ∃ words block out, state.mapM decode = .ok words ∧
    chunk.mapM (ChunkWord.number decode) = .ok block ∧ result.mapM decode = .ok out ∧
    out.length = 8 ∧ DirectlyUpdates words block out

/-- A word of thirty-two truth values of direct evaluation. -/
def IsTruthWord (a : List Datum) : Prop :=
  a.length = 32 ∧ ∀ d ∈ a, ∃ b, d = .bool b

theorem exists_reads_of_isTruthWord {a : List Datum} (h : IsTruthWord a) (j : Journal) :
    ∃ v, BitSliced.directWords.wordReading.Reads j a v := by
  obtain ⟨hlength, hbits⟩ := h
  have hbit (i : Fin 32) : ∃ b, a.get (i.cast hlength.symm) = .bool b := hbits _ (List.get_mem _ _)
  choose bit hbit using hbit
  refine ⟨Bits.word bit, hlength, fun i hi => ?_⟩
  have hlt : i < 32 := Nat.lt_of_lt_of_eq hi hlength
  have hvalue : (Value.ofBool ((Bits.word bit).getLsbD i)).getLsbD 0 = bit ⟨i, hlt⟩ := by
    rw [Value.getLsbD_ofBool, Bits.getLsbD_word bit hlt]
  exact (hbit ⟨i, hlt⟩).trans (congrArg Datum.bool hvalue.symm)

/-- What stands for a word consists of its bits, and it decodes to its number. -/
theorem isTruthWord_of_reads {a : List Datum} {v : Word} {j : Journal}
    (h : BitSliced.directWords.wordReading.Reads j a v) :
    IsTruthWord a ∧ Bits.decode a = .ok v.toNat := by
  have hbit (i : Nat) (hi : i < a.length) : a[i] = .bool (v.getLsbD i) :=
    (h.reads i hi).trans (congrArg Datum.bool (Value.getLsbD_ofBool _))
  refine ⟨⟨h.length_eq, fun d hd => ?_⟩, Bits.decode_eq_toNat h.length_eq fun i hi position => ?_⟩
  · obtain ⟨i, hi, rfl⟩ := List.getElem_of_mem hd
    exact ⟨_, hbit i hi⟩
  · rw [hbit i hi]
    exact Bits.value_bool position _

/-- The numbers of words. -/
abbrev numbers (words : List Word) : List Nat :=
  words.map BitVec.toNat

/-- Direct evaluation computes what the standard says. -/
theorem directlyUpdates_compress (v : Registers Word) (block : Vector Word 16) :
    DirectlyUpdates (numbers v.toList) (numbers block.toList)
      (numbers (Standard.compress v block).toList) := by
  intro j
  have hwords (words : List Word) : List.Forall₂ (Direct.journalled.wordReading.Reads j)
      ((numbers words).map fun (n : Nat) => Datum.int n) words := by
    simp only [List.map_map, List.forall₂_map_left_iff]
    exact List.forall₂_same.mpr fun _ _ => rfl
  have hblock : List.Forall₂
      (ReadsChunkWord (Direct.backend Direct.table) Direct.journalled.wordReading j)
      ((numbers block.toList).map fun (n : Nat) => .literal n) block.toList := by
    simp only [List.map_map, List.forall₂_map_left_iff]
    exact List.forall₂_same.mpr fun _ _ => rfl
  obtain ⟨result, j', hexec, -, hresult⟩ :=
    yields_update Direct.journalled_simulatesDirect (hwords v.toList) hblock
  have hout : result = (numbers (Standard.compress v block).toList).map fun (n : Nat) => Datum.int n := by
    rw [List.map_map, ← List.forall₂_eq_eq_eq, List.forall₂_map_right_iff]
    exact hresult
  exact ⟨j', hout ▸ hexec⟩

section Words

variable {σ : Type} {Handle : ValueType → Type} {b : Backend σ Handle}
  (R : Reading σ (Handle .u32) Word) {w : R.World} {state : List (Handle .u32)}
  {chunk : List (ChunkWord (Handle .u32))}

theorem exists_words (hlength : state.length = 8) (h : ∀ a ∈ state, ∃ v, R.Reads w a v) :
    ∃ v : Registers Word, List.Forall₂ (R.Reads w) state v.toList := by
  obtain ⟨words, hwords⟩ := exists_forall₂ h
  have height : words.length = 8 := hwords.length_eq.symm.trans hlength
  match words, height with
  | [a, b, c, d, e, f, g, h], _ => exact ⟨⟨a, b, c, d, e, f, g, h⟩, hwords⟩

/-- Where no handle is an integer, every handle of a chunk is taken as one. -/
theorem ChunkWord.sort_eq_self (hplain : ∀ x, b.integer? x = none) (c : ChunkWord (Handle .u32)) :
    c.sort b = c := by
  cases c with
  | literal n => rfl
  | handle x => rw [sort, hplain, Option.map_none, Option.getD_none]

theorem exists_block (hplain : ∀ x, b.integer? x = none) (hlength : chunk.length = 16)
    (h : ∀ c ∈ chunk, c.Valid fun a => ∃ v, R.Reads w a v) :
    ∃ block : Vector Word 16, List.Forall₂ (ReadsChunkWord b R w) chunk block.toList := by
  have hword : ∀ c ∈ chunk, ∃ v, ReadsChunkWord b R w c v := by
    intro c hc
    have hvalid := h c hc
    unfold ReadsChunkWord
    rw [c.sort_eq_self hplain]
    cases c with
    | literal n =>
      obtain ⟨hlo, hhi⟩ := hvalid
      refine ⟨.ofNat 32 n.toNat, ?_⟩
      simp only [BitVec.toNat_ofNat]
      omega
    | handle x => exact hvalid
  obtain ⟨words, hwords⟩ := exists_forall₂ hword
  exact ⟨⟨words.toArray, hwords.length_eq.symm.trans hlength⟩, hwords⟩

/-- Where handles decode to the words that they stand for, a result that stands for
    what the standard has decodes to what direct evaluation gives. -/
theorem decodesDirectly {v : Registers Word} {block : Vector Word 16}
    {decode : Handle .u32 → Except Fault Nat} {w' : R.World} {result : List (Handle .u32)}
    (hplain : ∀ x, b.integer? x = none) (hstate : List.Forall₂ (R.Reads w) state v.toList)
    (hchunk : List.Forall₂ (ReadsChunkWord b R w) chunk block.toList) (hgrows : R.Grows w w')
    (hresult : List.Forall₂ (R.Reads w') result (Standard.compress v block).toList)
    (hdecode : ∀ x u, R.Reads w' x u → decode x = .ok u.toNat) :
    DecodesDirectly decode state chunk result := by
  have hhandle (x : Handle .u32) (u : Word) (hx : R.Reads w x u) : decode x = .ok u.toNat :=
    hdecode x u (R.reads_of_grows hgrows hx)
  have hnumber (c : ChunkWord (Handle .u32)) (u : Word) (hc : ReadsChunkWord b R w c u) :
      c.number decode = .ok u.toNat := by
    unfold ReadsChunkWord at hc
    rw [c.sort_eq_self hplain] at hc
    cases c with
    | literal n =>
      obtain rfl : n = u.toNat := hc
      rfl
    | handle x => exact hhandle x u hc
  refine ⟨_, _, _, mapM_eq_ok_of_forall₂ ?_, mapM_eq_ok_of_forall₂ ?_, mapM_eq_ok_of_forall₂ ?_, rfl,
    directlyUpdates_compress v block⟩
  · exact List.forall₂_map_right_iff.mpr (hstate.imp hhandle)
  · exact List.forall₂_map_right_iff.mpr (hchunk.imp hnumber)
  · exact List.forall₂_map_right_iff.mpr (hresult.imp hdecode)

end Words

theorem update_overDirect (j : Journal) {state : List (List Datum)}
    {chunk : List (ChunkWord (List Datum))} (hstate : state.length = 8) (hchunk : chunk.length = 16)
    (hwords : ∀ a ∈ state, IsTruthWord a) (hvalid : ∀ c ∈ chunk, c.Valid IsTruthWord) :
    ∃ result j', (update BitSliced.overDirect state chunk).exec j = (.ok result, j') ∧
      (∀ a ∈ result, IsTruthWord a) ∧ DecodesDirectly Bits.decode state chunk result := by
  obtain ⟨v, hv⟩ := exists_words BitSliced.directWords.wordReading hstate fun a ha =>
    exists_reads_of_isTruthWord (hwords a ha) j
  obtain ⟨block, hblock⟩ := exists_block (b := BitSliced.overDirect)
    BitSliced.directWords.wordReading (fun _ => rfl) hchunk fun c hc =>
    (hvalid c hc).imp fun a ha => exists_reads_of_isTruthWord ha j
  obtain ⟨result, j', hexec, -, hresult⟩ :=
    yields_update BitSliced.directWords_simulatesDirect hv hblock
  have hdecode (a : List Datum) (u : Word) (hu : BitSliced.directWords.wordReading.Reads j' a u) :=
    isTruthWord_of_reads hu
  have hbits := (List.forall₂_and_left _ _).mp (hresult.imp fun a u hu => ⟨(hdecode a u hu).1, hu⟩)
  exact ⟨result, j', hexec, hbits.1,
    decodesDirectly _ (fun _ => rfl) hv hblock trivial hresult fun a u hu => (hdecode a u hu).2⟩

/-- A compression succeeds on declared words over every constraint system, and all it does
    there is to pose gates and to note events. -/
theorem exists_exec_update_circuit (s : ConstraintSystem)
    {state : List (BitSliced.Handle Combination .u32)}
    {chunk : List (ChunkWord (BitSliced.Handle Combination .u32))} (hstate : state.length = 8)
    (hchunk : chunk.length = 16) (hwords : ∀ a ∈ state, s.DeclaresWord a)
    (hvalid : ∀ c ∈ chunk, c.Valid s.DeclaresWord) :
    ∃ result t, (update (Host.circuit s.modulus).backend state chunk).exec s = (.ok result, t) ∧
      s.Continues t := by
  -- The vacuous reading is enough to succeed.
  obtain ⟨v, hv⟩ := exists_words (circuitWords fun _ => False).wordReading hstate fun a ha =>
    ⟨0, (hwords a ha).reads 0⟩
  obtain ⟨block, hblock⟩ := exists_block (b := (Host.circuit s.modulus).backend)
    (circuitWords fun _ => False).wordReading (fun _ => rfl) hchunk fun c hc =>
      (hvalid c hc).imp fun a ha => ⟨0, ha.reads 0⟩
  obtain ⟨result, t, hexec, hcontinues, -⟩ :=
    yields_update (circuitWords_simulatesDirect _ s.modulus) hv hblock
  exact ⟨result, t, hexec, hcontinues⟩

theorem update_circuit (s : ConstraintSystem) {state : List (BitSliced.Handle Combination .u32)}
    {chunk : List (ChunkWord (BitSliced.Handle Combination .u32))} (hstate : state.length = 8)
    (hchunk : chunk.length = 16) (hwords : ∀ a ∈ state, s.DeclaresWord a)
    (hvalid : ∀ c ∈ chunk, c.Valid s.DeclaresWord) :
    ∃ result t, (update (Host.circuit s.modulus).backend state chunk).exec s = (.ok result, t) ∧
      ∀ assignment : Assignment, assignment.Over s.modulus → t.isSatisfied assignment = .ok true →
        (∀ a ∈ state, EvaluatesToBits s.modulus assignment a) →
        (∀ c ∈ chunk, c.Valid (EvaluatesToBits s.modulus assignment)) →
          (∀ a ∈ result, EvaluatesToBits s.modulus assignment a) ∧
            DecodesDirectly (decodeAt assignment) state chunk result := by
  obtain ⟨result, t, hexec, hcontinues⟩ := exists_exec_update_circuit s hstate hchunk hwords hvalid
  refine ⟨result, t, hexec, fun assignment hover hsat hstateBits hchunkBits => ?_⟩
  obtain ⟨v, hv⟩ := exists_words (circuitWords (· = assignment)).wordReading hstate fun a ha => by
    obtain ⟨u, hu⟩ := (hstateBits a ha).exists_evaluatesTo (hwords a ha).length_eq
    exact ⟨u, hu.reads (hwords a ha)⟩
  obtain ⟨block, hblock⟩ := exists_block (b := (Host.circuit s.modulus).backend)
    (circuitWords (· = assignment)).wordReading (fun _ => rfl) hchunk
    fun c hc => ((hvalid c hc).and (hchunkBits c hc)).imp fun a ha => by
      obtain ⟨u, hu⟩ := ha.2.exists_evaluatesTo ha.1.length_eq
      exact ⟨u, hu.reads ha.1⟩
  obtain ⟨result', t', hexec', -, hresult⟩ :=
    yields_update (circuitWords_simulatesDirect _ s.modulus) hv hblock
  obtain ⟨hsame, rfl⟩ := Prod.mk.inj (hexec'.symm.trans hexec)
  obtain rfl := Except.ok.inj hsame
  have hmodulus := hcontinues.precedes.modulus_eq
  have hevaluates (a : BitSliced.Handle Combination .u32) (u : Word)
      (hu : (circuitWords (· = assignment)).wordReading.Reads t' a u) :
      EvaluatesToBits s.modulus assignment a ∧ decodeAt assignment a = .ok u.toNat := by
    have hu' := evaluatesTo_of_reads hu (hmodulus ▸ hover) hsat
    rw [hmodulus] at hu'
    exact ⟨hu'.evaluatesToBits, hu'.decodeAt_eq hu.length_eq⟩
  have hbits := (List.forall₂_and_left _ _).mp (hresult.imp fun a u hu => ⟨(hevaluates a u hu).1, hu⟩)
  exact ⟨hbits.1, decodesDirectly _ (fun _ => rfl) hv hblock hcontinues hresult fun a u hu =>
    (hevaluates a u hu).2⟩

/-- A compression does not depend on the backend. Under every backend that simulates
    direct evaluation on words, handles that stand for a state, and numbers and handles that
    stand for a block, give handles of the eight words that direct evaluation gives on them.
    A handle of the block that is an integer counts as this number, whatever word it stands
    for. Words of truth values and words of combinations are no integers; for these the same
    holds over direct evaluation, and over every constraint system at each assignment that
    satisfies the system after it and gives bits to the inputs. -/
theorem update_is_oblivious :
    (∀ {σ : Type} {Handle : ValueType → Type} {b : Backend σ Handle}
        {R : Reading σ (Handle .u32) Word}, R.SimulatesDirect b →
      ∀ (w : R.World) (state : List (Handle .u32)) (words : Registers Word)
        (chunk : List (ChunkWord (Handle .u32))) (block : Vector Word 16),
        List.Forall₂ (R.Reads w) state words.toList →
        List.Forall₂ (ReadsChunkWord b R w) chunk block.toList →
          ∃ out : Registers Word,
            DirectlyUpdates (numbers words.toList) (numbers block.toList) (numbers out.toList) ∧
              R.Yields w (update b state chunk) fun w' result =>
                List.Forall₂ (R.Reads w') result out.toList) ∧
    (∀ (j : Journal) (state : List (List Datum)) (chunk : List (ChunkWord (List Datum))),
      state.length = 8 → chunk.length = 16 → (∀ a ∈ state, IsTruthWord a) →
      (∀ c ∈ chunk, c.Valid IsTruthWord) →
        ∃ result j', (update BitSliced.overDirect state chunk).exec j = (.ok result, j') ∧
          (∀ a ∈ result, IsTruthWord a) ∧ DecodesDirectly Bits.decode state chunk result) ∧
    ∀ (s : ConstraintSystem) (state : List (BitSliced.Handle Combination .u32))
      (chunk : List (ChunkWord (BitSliced.Handle Combination .u32))),
      state.length = 8 → chunk.length = 16 → (∀ a ∈ state, s.DeclaresWord a) →
      (∀ c ∈ chunk, c.Valid s.DeclaresWord) →
        ∃ result t, (update (Host.circuit s.modulus).backend state chunk).exec s = (.ok result, t) ∧
          ∀ assignment : Assignment, assignment.Over s.modulus →
            t.isSatisfied assignment = .ok true →
            (∀ a ∈ state, EvaluatesToBits s.modulus assignment a) →
            (∀ c ∈ chunk, c.Valid (EvaluatesToBits s.modulus assignment)) →
              (∀ a ∈ result, EvaluatesToBits s.modulus assignment a) ∧
                DecodesDirectly (decodeAt assignment) state chunk result := by
  refine ⟨fun hsim w state words chunk block hstate hchunk => ?_, ?_, ?_⟩
  · exact ⟨Standard.compress words block, directlyUpdates_compress words block,
      yields_update hsim hstate hchunk⟩
  · exact fun j state chunk hstate hchunk hwords hvalid =>
      update_overDirect j hstate hchunk hwords hvalid
  · exact fun s state chunk hstate hchunk hwords hvalid =>
      update_circuit s hstate hchunk hwords hvalid

/-- Direct evaluation behind complements simulates direct evaluation, and there -1 stands for
    zero. But in a chunk it is taken for the number that it is, which is out of range. The
    same happens to -1 as the name of a word where operations are only written down. -/
theorem update_refuses_complements :
    (Direct.journalled.wordReading.recode .complements).SimulatesDirect
        ((Direct.backend Direct.table).recode .complements) ∧
      (Direct.journalled.wordReading.recode .complements).Reads Journal.empty (.int (-1)) 0 ∧
      (∃ j, (update ((Direct.backend Direct.table).recode .complements)
          (List.replicate 8 (.int (-1))) (List.replicate 16 (.handle (.int (-1))))).exec .empty =
        (.error (.outOfRange .u32 (-1)), j)) ∧
      ∃ trace, (update Trace.backend (List.replicate 8 (.text "s"))
          (.handle (.int (-1)) :: List.replicate 15 (.handle (.text "w")))).exec .empty =
        (.error (.outOfRange .u32 (-1)), trace) :=
  ⟨Direct.journalled_simulatesDirect.recode .complements, rfl,
    ⟨_, exec_update_of_error rfl List.length_replicate List.length_replicate rfl rfl⟩,
    ⟨_, exec_update_of_error rfl List.length_replicate rfl rfl rfl⟩⟩

/-- A chunk of a handle, a number and zeros. -/
def mixedChunk {ω : Type} (x : ω) : List (ChunkWord ω) :=
  .handle x :: .literal 9 :: List.replicate 14 (.literal 0)

theorem valid_mixedChunk {ω : Type} {P : ω → Prop} {x : ω} (hx : P x) :
    ∀ c ∈ mixedChunk x, c.Valid P := by
  simp only [mixedChunk, List.forall_mem_cons]
  refine ⟨hx, ⟨by decide, by decide⟩, fun c hc => ?_⟩
  obtain rfl := List.eq_of_mem_replicate hc
  exact ⟨by decide, by decide⟩

/-- A word of thirty-two inputs over the field with seven elements. -/
def inputWord : BitSliced.Handle Combination .u32 :=
  (empty .seven .unlimited).newInputs 32

theorem declaresWord_inputWord :
    ((empty .seven .unlimited).withInputs 32).DeclaresWord inputWord :=
  declaresWord_of_declares (length_newInputs _ 32) (declares_newInputs _ 32)

/-- Eight numbers are compressed with five, eight words of truth values with another, and over
    the field with seven elements eight times the word of inputs with itself. There the system has
    a solution at which the inputs make the number 305419896. -/
theorem update_of_inputs_is_oblivious :
    (∃ out : Registers Word, DirectlyUpdates [1, 2, 3, 4, 5, 6, 7, 8]
      (5 :: 9 :: List.replicate 14 0) (numbers out.toList) ∧
        Direct.journalled.wordReading.Yields .empty
          (update (Direct.backend Direct.table)
            [.int 1, .int 2, .int 3, .int 4, .int 5, .int 6, .int 7, .int 8] (mixedChunk (.int 5)))
          fun j' result => List.Forall₂ (Direct.journalled.wordReading.Reads j') result out.toList) ∧
    (∃ result j', (update BitSliced.overDirect
        (List.replicate 8 (List.replicate 32 (.bool true)))
        (mixedChunk (List.replicate 32 (.bool true)))).exec .empty = (.ok result, j') ∧
      (∀ a ∈ result, IsTruthWord a) ∧
        DecodesDirectly Bits.decode (List.replicate 8 (List.replicate 32 (.bool true)))
          (mixedChunk (List.replicate 32 (.bool true))) result) ∧
    ∃ result t, (update (Host.circuit .seven).backend (List.replicate 8 inputWord)
        (mixedChunk inputWord)).exec ((empty .seven .unlimited).withInputs 32) = (.ok result, t) ∧
      ∃ assignment, t.Solves assignment ∧ decodeAt assignment inputWord = .ok 305419896 ∧
        (∀ a ∈ result, EvaluatesToBits .seven assignment a) ∧
          DecodesDirectly (decodeAt assignment) (List.replicate 8 inputWord) (mixedChunk inputWord)
            result := by
  obtain ⟨hgeneral, hdirect, hcircuit⟩ := update_is_oblivious
  refine ⟨?_, ?_, ?_⟩
  · have hstate : List.Forall₂ (Direct.journalled.wordReading.Reads .empty)
        [.int 1, .int 2, .int 3, .int 4, .int 5, .int 6, .int 7, .int 8] [1, 2, 3, 4, 5, 6, 7, 8] := by
      refine .cons rfl (.cons rfl (.cons rfl (.cons rfl (.cons rfl (.cons rfl (.cons rfl
        (.cons rfl .nil)))))))
    have hchunk : List.Forall₂
        (ReadsChunkWord (Direct.backend Direct.table) Direct.journalled.wordReading .empty)
        (mixedChunk (.int 5)) (5 :: 9 :: List.replicate 14 0) :=
      .cons rfl (.cons rfl (forall₂_replicate (by rfl) 14))
    exact hgeneral Direct.journalled_simulatesDirect .empty _ ⟨1, 2, 3, 4, 5, 6, 7, 8⟩ _
      ⟨(5 :: 9 :: List.replicate 14 0).toArray, rfl⟩ hstate hchunk
  · have htruth : IsTruthWord (List.replicate 32 (.bool true)) :=
      ⟨List.length_replicate, fun d hd => ⟨true, List.eq_of_mem_replicate hd⟩⟩
    refine hdirect .empty _ _ List.length_replicate rfl ?_ (valid_mixedChunk htruth)
    intro a ha
    obtain rfl := List.eq_of_mem_replicate ha
    exact htruth
  · have hstate : ∀ a ∈ List.replicate 8 inputWord,
        ((empty .seven .unlimited).withInputs 32).DeclaresWord a :=
      fun a ha => List.eq_of_mem_replicate ha ▸ declaresWord_inputWord
    have hchunk := valid_mixedChunk declaresWord_inputWord
    obtain ⟨result, t, hexec, hsound⟩ := hcircuit ((empty .seven .unlimited).withInputs 32) _ _
      List.length_replicate rfl hstate hchunk
    obtain ⟨result', t', hexec', hcontinues⟩ :=
      exists_exec_update_circuit _ List.length_replicate rfl hstate hchunk
    obtain rfl : t' = t := (Prod.mk.inj (hexec'.symm.trans hexec)).2
    obtain ⟨assignment, hover, hsolves, hcarries⟩ := exists_solves_carries
      (wellFormed_empty .seven .unlimited) (solves_empty _ _) (Nat.testBit 305419896) hcontinues
    have hword : EvaluatesTo .seven assignment inputWord (305419896 : Value .u32) :=
      evaluatesTo_of_carries 0 hcarries (by rw [length_newInputs]; decide) rfl (by decide)
    obtain ⟨hbits, hdecodes⟩ := hsound assignment hover hsolves.satisfied
      (fun a ha => List.eq_of_mem_replicate ha ▸ hword.evaluatesToBits)
      (valid_mixedChunk hword.evaluatesToBits)
    exact ⟨result, t', hexec, assignment, hsolves, hword.decodeAt_eq declaresWord_inputWord.length_eq,
      hbits, hdecodes⟩

end Sha256

end WordCircuit
