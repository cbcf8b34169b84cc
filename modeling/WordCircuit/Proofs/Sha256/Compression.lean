import WordCircuit.Proofs.Sha256.Simulation

namespace WordCircuit.Sha256

open Standard (Word)

variable {σ : Type} {Handle : ValueType → Type} {R : Reading σ (Handle .u32) Word}
  {b : Backend σ Handle} {w : R.World}

section Functions

variable (h : R.SimulatesDirect b) {x y z : Handle .u32} {u v t : Word}

include h

/-- The two rotations that all four functions of one word begin with. -/
theorem yields_rotations (hx : R.Reads w x u) {r₀ r₁ : Nat} (h₀ : r₀ < 32) (h₁ : r₁ < 32)
    {next : Handle .u32 → Action σ (Handle .u32)} {r : Word}
    (hnext : ∀ w' both, R.Grows w w' →
      R.Reads w' both (u.rotateRight r₀ ^^^ u.rotateRight r₁) →
        R.Yields w' (next both) (R.Reads · · r)) :
    R.Yields w (do
      let first ← b.rotr .u32 x (.int r₀)
      let second ← b.rotr .u32 x (.int r₁)
      let both ← b.xor .u32 first second
      next both) (R.Reads · · r) := by
  refine (h.yields_rotr hx h₀).bind fun w₁ first hgrows₁ hfirst => ?_
  have hx := R.reads_of_grows hgrows₁ hx
  refine (h.yields_rotr hx h₁).bind fun w₂ second hgrows₂ hsecond => ?_
  have hfirst := R.reads_of_grows hgrows₂ hfirst
  refine (h.yields_xor hfirst hsecond).bind fun w₃ both hgrows₃ hboth => ?_
  exact hnext w₃ both (R.grows_trans (R.grows_trans hgrows₁ hgrows₂) hgrows₃) hboth

theorem yields_bigSigma (hx : R.Reads w x u) (r₀ r₁ r₂ : Nat) (h₀ : r₀ < 32) (h₁ : r₁ < 32)
    (h₂ : r₂ < 32) :
    R.Yields w (bigSigma b x (.int r₀) (.int r₁) (.int r₂))
      (R.Reads · · (u.rotateRight r₀ ^^^ u.rotateRight r₁ ^^^ u.rotateRight r₂)) := by
  refine yields_rotations h hx h₀ h₁ fun w₁ both hgrows₁ hboth => ?_
  have hx := R.reads_of_grows hgrows₁ hx
  refine (h.yields_rotr hx h₂).bind fun w₂ third hgrows₂ hthird => ?_
  exact h.yields_xor (R.reads_of_grows hgrows₂ hboth) hthird

theorem yields_smallSigma (hx : R.Reads w x u) (r₀ r₁ k : Nat) (h₀ : r₀ < 32) (h₁ : r₁ < 32)
    (hk : k ≤ 32) :
    R.Yields w (smallSigma b x (.int r₀) (.int r₁) (.int k))
      (R.Reads · · (u.rotateRight r₀ ^^^ u.rotateRight r₁ ^^^ u >>> k)) := by
  refine yields_rotations h hx h₀ h₁ fun w₁ both hgrows₁ hboth => ?_
  have hx := R.reads_of_grows hgrows₁ hx
  refine (h.yields_shr hx hk).bind fun w₂ third hgrows₂ hthird => ?_
  exact h.yields_xor (R.reads_of_grows hgrows₂ hboth) hthird

theorem yields_choice (hx : R.Reads w x u) (hy : R.Reads w y v) (hz : R.Reads w z t) :
    R.Yields w (choice b x y z) (R.Reads · · (Standard.ch u v t)) := by
  refine (h.yields_and hx hy).bind fun w₁ chosen hgrows₁ hchosen => ?_
  have hx := R.reads_of_grows hgrows₁ hx
  have hz := R.reads_of_grows hgrows₁ hz
  refine (h.yields_not hx).bind fun w₂ notX hgrows₂ hnotX => ?_
  have hz := R.reads_of_grows hgrows₂ hz
  have hchosen := R.reads_of_grows hgrows₂ hchosen
  refine (h.yields_and hnotX hz).bind fun w₃ other hgrows₃ hother => ?_
  exact h.yields_xor (R.reads_of_grows hgrows₃ hchosen) hother

theorem yields_majority (hx : R.Reads w x u) (hy : R.Reads w y v) (hz : R.Reads w z t) :
    R.Yields w (majority b x y z) (R.Reads · · (Standard.maj u v t)) := by
  refine (h.yields_and hx hy).bind fun w₁ xy hgrows₁ hxy => ?_
  have hx := R.reads_of_grows hgrows₁ hx
  have hy := R.reads_of_grows hgrows₁ hy
  have hz := R.reads_of_grows hgrows₁ hz
  refine (h.yields_and hx hz).bind fun w₂ xz hgrows₂ hxz => ?_
  have hxy := R.reads_of_grows hgrows₂ hxy
  have hy := R.reads_of_grows hgrows₂ hy
  have hz := R.reads_of_grows hgrows₂ hz
  refine (h.yields_xor hxy hxz).bind fun w₃ both hgrows₃ hboth => ?_
  have hy := R.reads_of_grows hgrows₃ hy
  have hz := R.reads_of_grows hgrows₃ hz
  refine (h.yields_and hy hz).bind fun w₄ yz hgrows₄ hyz => ?_
  exact h.yields_xor (R.reads_of_grows hgrows₄ hboth) hyz

end Functions

/-- The handles of the first words of a schedule stand for those of the standard. -/
abbrev ReadsSchedule (R : Reading σ (Handle .u32) Word) (w : R.World) {count : Nat}
    (handles : Vector (Handle .u32) count) (block : Vector Word 16) : Prop :=
  R.Spells w handles.toList count (Standard.scheduleWord block)

/-- Each word after the chunk is computed from four handles that stand for words of
    the schedule already. -/
theorem yields_schedule (h : R.SimulatesDirect b) {chunk : Vector (Handle .u32) 16}
    {block : Vector Word 16} (hchunk : ReadsSchedule R w chunk block) (count : Nat) :
    R.Yields w (schedule b chunk count) fun w' out => ReadsSchedule R w' out block := by
  induction count with
  | zero => exact .pure hchunk
  | succ i ih =>
    refine ih.bind fun w₁ out hgrows₁ hout => ?_
    have hsigma₀ := yields_smallSigma h (hout.getElem (i + 1) (by omega)) 7 18 3
      (by decide) (by decide) (by decide)
    refine hsigma₀.bind fun w₂ s₀ hgrows₂ hs₀ => ?_
    have hout := hout.of_grows hgrows₂
    have hsigma₁ := yields_smallSigma h (hout.getElem (i + 14) (by omega)) 17 19 10
      (by decide) (by decide) (by decide)
    refine hsigma₁.bind fun w₃ s₁ hgrows₃ hs₁ => ?_
    have hout := hout.of_grows hgrows₃
    have hs₀ := R.reads_of_grows hgrows₃ hs₀
    refine (h.yields_wrappingAdd (hout.getElem i (by omega)) hs₀).bind fun w₄ t hgrows₄ ht => ?_
    have hout := hout.of_grows hgrows₄
    have hs₁ := R.reads_of_grows hgrows₄ hs₁
    refine (h.yields_wrappingAdd ht (hout.getElem (i + 9) (by omega))).bind fun w₅ t hgrows₅ ht => ?_
    have hout := hout.of_grows hgrows₅
    have hs₁ := R.reads_of_grows hgrows₅ hs₁
    refine (h.yields_wrappingAdd ht hs₁).bind fun w₆ t hgrows₆ ht => ?_
    refine .pure ((hout.of_grows hgrows₆).push ?_)
    have hword : Standard.scheduleWord block (16 + i) =
        Standard.scheduleWord block i + Standard.smallSigma₀ (Standard.scheduleWord block (i + 1)) +
          Standard.scheduleWord block (i + 9) +
          Standard.smallSigma₁ (Standard.scheduleWord block (i + 14)) := by
      rw [Standard.scheduleWord_add_sixteen]
      ac_rfl
    rw [hword]
    exact ht

/-- The handles of the working words stand for those of the standard. -/
structure ReadsRegisters (R : Reading σ (Handle .u32) Word) (w : R.World)
    (r : Registers (Handle .u32)) (v : Registers Word) : Prop where
  a : R.Reads w r.a v.a
  b : R.Reads w r.b v.b
  c : R.Reads w r.c v.c
  d : R.Reads w r.d v.d
  e : R.Reads w r.e v.e
  f : R.Reads w r.f v.f
  g : R.Reads w r.g v.g
  h : R.Reads w r.h v.h

theorem ReadsRegisters.of_grows {w' : R.World} {r : Registers (Handle .u32)} {v : Registers Word}
    (hgrows : R.Grows w w') (hr : ReadsRegisters R w r v) : ReadsRegisters R w' r v :=
  ⟨R.reads_of_grows hgrows hr.a, R.reads_of_grows hgrows hr.b, R.reads_of_grows hgrows hr.c,
    R.reads_of_grows hgrows hr.d, R.reads_of_grows hgrows hr.e, R.reads_of_grows hgrows hr.f,
    R.reads_of_grows hgrows hr.g, R.reads_of_grows hgrows hr.h⟩

theorem yields_round (h : R.SimulatesDirect b) {r : Registers (Handle .u32)} {v : Registers Word}
    (hr : ReadsRegisters R w r v) (k : Word) {x : Handle .u32} {u : Word} (hx : R.Reads w x u) :
    R.Yields w (round b r k.toNat x) (ReadsRegisters R · · (Standard.round v k u)) := by
  have hsigma₁ := yields_bigSigma h hr.e 6 11 25 (by decide) (by decide) (by decide)
  refine hsigma₁.bind fun w₁ s₁ hgrows hs₁ => ?_
  have hr := hr.of_grows hgrows
  have hx := R.reads_of_grows hgrows hx
  refine (yields_choice h hr.e hr.f hr.g).bind fun w₂ chosen hgrows hchosen => ?_
  have hr := hr.of_grows hgrows
  have hx := R.reads_of_grows hgrows hx
  have hs₁ := R.reads_of_grows hgrows hs₁
  refine (h.yields_wrappingAdd hr.h hs₁).bind fun w₃ t₁ hgrows ht₁ => ?_
  have hr := hr.of_grows hgrows
  have hx := R.reads_of_grows hgrows hx
  have hchosen := R.reads_of_grows hgrows hchosen
  refine (h.yields_wrappingAdd ht₁ hchosen).bind fun w₄ t₁ hgrows ht₁ => ?_
  have hr := hr.of_grows hgrows
  have hx := R.reads_of_grows hgrows hx
  refine (h.yields_constant w₄ k).bind fun w₅ constant hgrows hconstant => ?_
  have hr := hr.of_grows hgrows
  have hx := R.reads_of_grows hgrows hx
  have ht₁ := R.reads_of_grows hgrows ht₁
  refine (h.yields_wrappingAdd ht₁ hconstant).bind fun w₆ t₁ hgrows ht₁ => ?_
  have hr := hr.of_grows hgrows
  have hx := R.reads_of_grows hgrows hx
  refine (h.yields_wrappingAdd ht₁ hx).bind fun w₇ t₁ hgrows ht₁ => ?_
  have hr := hr.of_grows hgrows
  have hsigma₀ := yields_bigSigma h hr.a 2 13 22 (by decide) (by decide) (by decide)
  refine hsigma₀.bind fun w₈ s₀ hgrows hs₀ => ?_
  have hr := hr.of_grows hgrows
  have ht₁ := R.reads_of_grows hgrows ht₁
  refine (yields_majority h hr.a hr.b hr.c).bind fun w₉ common hgrows hcommon => ?_
  have hr := hr.of_grows hgrows
  have ht₁ := R.reads_of_grows hgrows ht₁
  have hs₀ := R.reads_of_grows hgrows hs₀
  refine (h.yields_wrappingAdd hs₀ hcommon).bind fun w₁₀ t₂ hgrows ht₂ => ?_
  have hr := hr.of_grows hgrows
  have ht₁ := R.reads_of_grows hgrows ht₁
  refine (h.yields_wrappingAdd hr.d ht₁).bind fun w₁₁ e hgrows he => ?_
  have hr := hr.of_grows hgrows
  have ht₁ := R.reads_of_grows hgrows ht₁
  have ht₂ := R.reads_of_grows hgrows ht₂
  refine (h.yields_wrappingAdd ht₁ ht₂).bind fun w₁₂ a hgrows ha => ?_
  have hr := hr.of_grows hgrows
  exact .pure ⟨ha, hr.a, hr.b, hr.c, R.reads_of_grows hgrows he, hr.e, hr.f, hr.g⟩

theorem roundConstants_eq {t : Nat} (ht : t < 64) :
    roundConstants[t] = (Standard.roundConstant t).toNat := by
  have hsmall : ∀ k ∈ roundConstants.toList, k < 2 ^ 32 := by decide
  have hmem : roundConstants[t] ∈ roundConstants.toList :=
    Vector.mem_toList_iff.mpr (Vector.getElem_mem ht)
  have hget : roundConstants.toList.getD t 0 = roundConstants[t] := by
    rw [List.getD_eq_getElem?_getD, List.getElem?_eq_getElem (by rwa [Vector.length_toList]),
      Option.getD_some, Vector.getElem_toList]
  rw [Standard.roundConstant, hget, BitVec.toNat_ofNat, Nat.mod_eq_of_lt (hsmall _ hmem)]

/-- The constants and the words of the schedule, taken in order, lead through the
    rounds of the standard. -/
theorem yields_rounds (h : R.SimulatesDirect b) {state : Registers (Handle .u32)}
    {v : Registers Word} (hstate : ReadsRegisters R w state v) {block : Vector Word 16}
    (items : List (Nat × Handle .u32))
    (hconstants : ∀ (t : Nat) (ht : t < items.length),
      items[t].1 = (Standard.roundConstant t).toNat)
    (hwords : ∀ (t : Nat) (ht : t < items.length),
      R.Reads w items[t].2 (Standard.scheduleWord block t)) :
    R.Yields w (items.foldlM (fun r kw => round b r kw.1 kw.2) state)
      (ReadsRegisters R · · (Standard.rounds block v items.length)) := by
  have hloop := Frame.Yields.foldlM (F := R.toFrame) (w := w)
    (fun t w' r => ReadsRegisters R w' r (Standard.rounds block v t))
    (fun r kw => round b r kw.1 kw.2) items hstate fun t ht w' r hgrows hr => by
      rw [hconstants t ht]
      exact yields_round h hr _ (R.reads_of_grows hgrows (hwords t ht))
  exact hloop

theorem yields_compress (h : R.SimulatesDirect b) {state : Registers (Handle .u32)}
    {v : Registers Word} (hstate : ReadsRegisters R w state v) {chunk : Vector (Handle .u32) 16}
    {block : Vector Word 16} (hchunk : ReadsSchedule R w chunk block) :
    R.Yields w (compress b state chunk) fun w' out =>
      List.Forall₂ (R.Reads w') out (Standard.compress v block).toList := by
  refine (yields_schedule h hchunk 48).bind fun w₁ words hgrows₁ hwords => ?_
  have hstate := hstate.of_grows hgrows₁
  have hlength : (roundConstants.zip words).toList.length = 64 := Vector.length_toList
  have hrounds := yields_rounds h hstate (roundConstants.zip words).toList
    (fun t ht => by
      rw [Vector.getElem_toList, Vector.getElem_zip, roundConstants_eq (hlength ▸ ht)])
    (fun t ht => by
      rw [Vector.getElem_toList, Vector.getElem_zip]
      exact hwords.getElem t (Nat.lt_of_lt_of_eq ht hlength))
  rw [hlength] at hrounds
  refine hrounds.bind fun w₂ last hgrows₂ hlast => ?_
  have hstate := hstate.of_grows hgrows₂
  have hsum {x y : Handle .u32} {u t : Word} (hx : R.Reads w₂ x u) (hy : R.Reads w₂ y t)
      (w' : R.World) (hgrows : R.Grows w₂ w') :
      R.Yields w' (b.wrappingAdd .u32 x y) (R.Reads · · (t + u)) := by
    rw [BitVec.add_comm]
    exact h.yields_wrappingAdd (R.reads_of_grows hgrows hx) (R.reads_of_grows hgrows hy)
  exact R.yields_mapM_forall₂ (.cons (hsum hstate.a hlast.a) (.cons (hsum hstate.b hlast.b)
    (.cons (hsum hstate.c hlast.c) (.cons (hsum hstate.d hlast.d) (.cons (hsum hstate.e hlast.e)
      (.cons (hsum hstate.f hlast.f) (.cons (hsum hstate.g hlast.g)
        (.cons (hsum hstate.h hlast.h) .nil))))))))

/-- What a word of a chunk is taken for stands for a word: a number as itself, and
    everything else as a handle. -/
def ReadsChunkWord (b : Backend σ Handle) (R : Reading σ (Handle .u32) Word) (w : R.World)
    (c : ChunkWord (Handle .u32)) (v : Word) : Prop :=
  match c.sort b with
  | .literal n => n = v.toNat
  | .handle x => R.Reads w x v

theorem ReadsChunkWord.of_grows {w w' : R.World} {c : ChunkWord (Handle .u32)} {v : Word}
    (hgrows : R.Grows w w') (hc : ReadsChunkWord b R w c v) : ReadsChunkWord b R w' c v := by
  unfold ReadsChunkWord at hc ⊢
  cases hsort : c.sort b with
  | literal n => rwa [hsort] at hc
  | handle x =>
    rw [hsort] at hc
    exact R.reads_of_grows hgrows hc

theorem yields_word (h : R.SimulatesDirect b) {c : ChunkWord (Handle .u32)} {v : Word}
    (hc : ReadsChunkWord b R w c v) : R.Yields w (word b c) (R.Reads · · v) := by
  unfold ReadsChunkWord at hc
  unfold word
  cases hsort : c.sort b with
  | literal n =>
    rw [hsort] at hc
    obtain rfl : n = v.toNat := hc
    exact h.yields_constant w v
  | handle x =>
    rw [hsort] at hc
    exact .pure hc

/-- A compression stops at the first word of its chunk that it cannot have. -/
theorem exec_update_of_error (hoffers : b.require .u32 required "sha256" = .ok ())
    {state : List (Handle .u32)} {chunk : List (ChunkWord (Handle .u32))} (hstate : state.length = 8)
    (hchunk : chunk.length = 16) {s t u : σ} (hnote : (b.note (.compression b.name)).exec s = (.ok (), t))
    {fault : Fault} (hwords : (chunk.mapM (word b)).exec t = (.error fault, u)) :
    (update b state chunk).exec s = (.error fault, u) := by
  match state, hstate with
  | [a₀, a₁, a₂, a₃, a₄, a₅, a₆, a₇], _ =>
    refine (Action.exec_liftM_bind_of_ok hoffers s).trans ?_
    simp only [Registers.ofList?, dif_pos hchunk]
    refine (Action.exec_bind_of_ok hnote).trans ?_
    exact Action.exec_bind_of_error (Action.exec_vector_mapM_of_error hchunk hwords)

theorem exists_registers {state : List (Handle .u32)} {v : Registers Word}
    (hstate : List.Forall₂ (R.Reads w) state v.toList) :
    ∃ r, Registers.ofList? state = some r ∧ ReadsRegisters R w r v := by
  obtain _ | ⟨ha, _ | ⟨hb, _ | ⟨hc, _ | ⟨hd, _ | ⟨he, _ | ⟨hf, _ | ⟨hg, _ | ⟨hh, _ | _⟩⟩⟩⟩⟩⟩⟩⟩ := hstate
  exact ⟨_, rfl, ha, hb, hc, hd, he, hf, hg, hh⟩

/-- Under every backend that simulates direct evaluation a compression gives handles
    of the words that the standard has after the block. -/
theorem yields_update (h : R.SimulatesDirect b) {state : List (Handle .u32)} {v : Registers Word}
    (hstate : List.Forall₂ (R.Reads w) state v.toList) {chunk : List (ChunkWord (Handle .u32))}
    {block : Vector Word 16} (hchunk : List.Forall₂ (ReadsChunkWord b R w) chunk block.toList) :
    R.Yields w (update b state chunk) fun w' out =>
      List.Forall₂ (R.Reads w') out (Standard.compress v block).toList := by
  have hlength : chunk.length = 16 := hchunk.length_eq.trans Vector.length_toList
  obtain ⟨r, hofList, hr⟩ := exists_registers hstate
  refine .check h.offers ?_
  simp only [hofList, dif_pos hlength]
  refine (h.note w (.compression b.name)).bind fun w₁ _ hgrows₁ _ => ?_
  have hwords : R.Yields w₁ ((⟨chunk.toArray, hlength⟩ : Vector _ 16).mapM (word b))
      fun w' out => ReadsSchedule R w' out block := by
    apply R.yields_vector_mapM hlength
    intro t ht w' hgrows
    have hword := hchunk.get ht (by rwa [← hchunk.length_eq])
    rw [Standard.scheduleWord_of_lt block (hlength ▸ ht)]
    exact yields_word h (hword.of_grows (R.grows_trans hgrows₁ hgrows))
  refine hwords.bind fun w₂ words hgrows₂ hwords => ?_
  exact yields_compress h ((hr.of_grows hgrows₁).of_grows hgrows₂) hwords

end WordCircuit.Sha256
