import WordCircuit.Backend
import WordCircuit.Proofs.Action

namespace WordCircuit

/-- How handles show the bits of words. Words with the same bits are the same handle. -/
structure BitView (α : Type) (width : Nat) (β : Type) where
  IsWord : α → Prop
  bit : α → Nat → β
  ext : ∀ {x y : α}, IsWord x → IsWord y → (∀ i < width, bit x i = bit y i) → x = y

/-- In the states of `S` the constant false is always the same handle, and making it does not
    lead out of them. -/
def Backend.FixesFalse {σ : Type} {Handle : ValueType → Type} (b : Backend σ Handle) (S : σ → Prop)
    (zero : Handle .bool) : Prop :=
  ∀ s, S s → ∃ t, (b.constant .bool (.bool false)).exec s = (.ok zero, t) ∧ S t

namespace BitView

variable {σ β : Type} {Handle : ValueType → Type} {ty : ValueType}

/-- The rotations of a backend take each bit from further along the cycle of positions, and they
    leave the state alone. -/
structure Rotates (V : BitView (Handle ty) ty.width β) (b : Backend σ Handle) : Prop where
  rotl : ∀ {x : Handle ty} {k : Nat} (s : σ), V.IsWord x → k < ty.width →
    ∃ y, (b.rotl ty x (.int k)).exec s = (.ok y, s) ∧ V.IsWord y ∧
      ∀ i < ty.width, V.bit y i = V.bit x ((i + (ty.width - k)) % ty.width)
  rotr : ∀ {x : Handle ty} {k : Nat} (s : σ), V.IsWord x → k < ty.width →
    ∃ y, (b.rotr ty x (.int k)).exec s = (.ok y, s) ∧ V.IsWord y ∧
      ∀ i < ty.width, V.bit y i = V.bit x ((i + k) % ty.width)

/-- The shifts of a backend, in the states of `S`, take each bit from another position, or fill
    in the bit `zero` where there is none. -/
structure Shifts (V : BitView (Handle ty) ty.width β) (b : Backend σ Handle) (S : σ → Prop)
    (zero : β) : Prop where
  shl : ∀ {x : Handle ty} {k : Nat} {s : σ}, S s → V.IsWord x → k ≤ ty.width →
    ∃ y t, (b.shl ty x (.int k)).exec s = (.ok y, t) ∧ S t ∧ V.IsWord y ∧
      ∀ i < ty.width, V.bit y i = if i < k then zero else V.bit x (i - k)
  shr : ∀ {x : Handle ty} {k : Nat} {s : σ}, S s → V.IsWord x → k ≤ ty.width →
    ∃ y t, (b.shr ty x (.int k)).exec s = (.ok y, t) ∧ S t ∧ V.IsWord y ∧
      ∀ i < ty.width, V.bit y i = if i + k < ty.width then V.bit x (i + k) else zero

/-- Rotations of words of a backend make up a cyclic group: those to the right invert those to
    the left, and amounts add up modulo the width. -/
structure Cyclic (V : BitView (Handle ty) ty.width β) (b : Backend σ Handle) : Prop where
  rotr_rotl : ∀ {x : Handle ty} {k : Nat} (s : σ), V.IsWord x → k < ty.width →
    (b.rotl ty x (.int k) >>= fun y => b.rotr ty y (.int k)).exec s = (.ok x, s)
  rotl_rotr : ∀ {x : Handle ty} {k : Nat} (s : σ), V.IsWord x → k < ty.width →
    (b.rotr ty x (.int k) >>= fun y => b.rotl ty y (.int k)).exec s = (.ok x, s)
  rotl_rotl : ∀ {x : Handle ty} {j k : Nat} (s : σ), V.IsWord x → j < ty.width → k < ty.width →
    ∃ y, (b.rotl ty x (.int j) >>= fun z => b.rotl ty z (.int k)).exec s = (.ok y, s) ∧
      (b.rotl ty x (.int ((j + k) % ty.width : Nat))).exec s = (.ok y, s)
  rotl_eq_rotr : ∀ {x : Handle ty} {k : Nat} (s : σ), V.IsWord x → k < ty.width →
    ∃ y, (b.rotl ty x (.int k)).exec s = (.ok y, s) ∧
      (b.rotr ty x (.int ((ty.width - k) % ty.width : Nat))).exec s = (.ok y, s)

/-- Shifts to one side add up, to the whole width at most, and a shift to the right and back
    clears the lowest bits. Each shift may make the bit that it fills in anew, so that the states
    left behind can differ. -/
structure Additive (V : BitView (Handle ty) ty.width β) (b : Backend σ Handle) (S : σ → Prop)
    (zero : β) : Prop where
  shl_shl : ∀ {x : Handle ty} {j k : Nat} {s : σ}, S s → V.IsWord x → j ≤ ty.width → k ≤ ty.width →
    ∃ y t t', (b.shl ty x (.int j) >>= fun z => b.shl ty z (.int k)).exec s = (.ok y, t) ∧
      (b.shl ty x (.int (min (j + k) ty.width : Nat))).exec s = (.ok y, t')
  shr_shr : ∀ {x : Handle ty} {j k : Nat} {s : σ}, S s → V.IsWord x → j ≤ ty.width → k ≤ ty.width →
    ∃ y t t', (b.shr ty x (.int j) >>= fun z => b.shr ty z (.int k)).exec s = (.ok y, t) ∧
      (b.shr ty x (.int (min (j + k) ty.width : Nat))).exec s = (.ok y, t')
  shl_shr : ∀ {x : Handle ty} {k : Nat} {s : σ}, S s → V.IsWord x → k ≤ ty.width →
    ∃ y t, (b.shr ty x (.int k) >>= fun z => b.shl ty z (.int k)).exec s = (.ok y, t) ∧
      V.IsWord y ∧ ∀ i < ty.width, V.bit y i = if i < k then zero else V.bit x i

variable {V : BitView (Handle ty) ty.width β} {b : Backend σ Handle}

/-- Going round the cycle of positions by the rests of two amounts is going round by the rest of
    their sum. -/
theorem rest_add_rest {width i j k : Nat} (hj : j < width) (hk : k < width) :
    ((i + (width - k)) % width + (width - j)) % width = (i + (width - (j + k) % width)) % width := by
  rw [Nat.mod_add_mod]
  by_cases hsum : j + k < width
  · have hround : i + (width - k) + (width - j) = i + (width - (j + k)) + width := by omega
    rw [Nat.mod_eq_of_lt hsum, hround, Nat.add_mod_right]
  · have hround : i + (width - k) + (width - j) = i + (width - (j + k - width)) := by omega
    have hreduced : (j + k) % width = j + k - width := by
      rw [Nat.mod_eq_sub_mod (Nat.le_of_not_lt hsum)]
      exact Nat.mod_eq_of_lt (by omega)
    rw [hreduced, hround]

theorem Rotates.cyclic (h : V.Rotates b) : V.Cyclic b where
  rotr_rotl {x k} s hx hk := by
    obtain ⟨y, hleft, hy, hbits⟩ := h.rotl s hx hk
    obtain ⟨z, hright, hz, hbits'⟩ := h.rotr s hy hk
    have hround : z = x := by
      apply V.ext hz hx
      intro i hi
      rw [hbits' i hi, hbits _ (Nat.mod_lt _ (by omega)), Nat.mod_add_mod,
        show i + k + (ty.width - k) = i + ty.width by omega, Nat.add_mod_right, Nat.mod_eq_of_lt hi]
    rw [Action.exec_bind_of_ok hleft, hright, hround]
  rotl_rotr {x k} s hx hk := by
    obtain ⟨y, hright, hy, hbits⟩ := h.rotr s hx hk
    obtain ⟨z, hleft, hz, hbits'⟩ := h.rotl s hy hk
    have hround : z = x := by
      apply V.ext hz hx
      intro i hi
      rw [hbits' i hi, hbits _ (Nat.mod_lt _ (by omega)), Nat.mod_add_mod,
        show i + (ty.width - k) + k = i + ty.width by omega, Nat.add_mod_right, Nat.mod_eq_of_lt hi]
    rw [Action.exec_bind_of_ok hright, hleft, hround]
  rotl_rotl {x j k} s hx hj hk := by
    obtain ⟨y, hfirst, hy, hbits⟩ := h.rotl s hx hj
    obtain ⟨z, hsecond, hz, hbits'⟩ := h.rotl s hy hk
    obtain ⟨z', honce, hz', honceBits⟩ := h.rotl s hx (Nat.mod_lt (j + k) (Nat.zero_lt_of_lt hj))
    have hsame : z = z' := by
      apply V.ext hz hz'
      intro i hi
      rw [hbits' i hi, hbits _ (Nat.mod_lt _ (by omega)), honceBits i hi, rest_add_rest hj hk]
    exact ⟨z, (Action.exec_bind_of_ok hfirst).trans hsecond, hsame ▸ honce⟩
  rotl_eq_rotr {x k} s hx hk := by
    obtain ⟨y, hleft, hy, hbits⟩ := h.rotl s hx hk
    obtain ⟨z, hright, hz, hbits'⟩ := h.rotr s hx (Nat.mod_lt (ty.width - k) (Nat.zero_lt_of_lt hk))
    have hsame : y = z := by
      apply V.ext hy hz
      intro i hi
      rw [hbits i hi, hbits' i hi, Nat.add_mod_mod]
    exact ⟨y, hleft, hsame ▸ hright⟩

theorem Shifts.additive {S : σ → Prop} {zero : β} (h : V.Shifts b S zero) : V.Additive b S zero where
  shl_shl {x j k s} hs hx hj hk := by
    obtain ⟨y, t, hfirst, ht, hy, hbits⟩ := h.shl hs hx hj
    obtain ⟨z, u, hsecond, -, hz, hbits'⟩ := h.shl ht hy hk
    obtain ⟨z', t', honce, -, hz', honceBits⟩ := h.shl hs hx (Nat.min_le_right (j + k) ty.width)
    have hsame : z = z' := by
      apply V.ext hz hz'
      intro i hi
      rw [hbits' i hi, honceBits i hi]
      -- The zeros of the second shift, those of the first one, and what is left of the word.
      by_cases hlow : i < k
      · rw [if_pos hlow, if_pos (by omega)]
      · rw [if_neg hlow, hbits _ (by omega)]
        by_cases hfilled : i - k < j
        · rw [if_pos hfilled, if_pos (by omega)]
        · rw [if_neg hfilled, if_neg (by omega), show i - k - j = i - min (j + k) ty.width by omega]
    exact ⟨z, u, t', (Action.exec_bind_of_ok hfirst).trans hsecond, hsame ▸ honce⟩
  shr_shr {x j k s} hs hx hj hk := by
    obtain ⟨y, t, hfirst, ht, hy, hbits⟩ := h.shr hs hx hj
    obtain ⟨z, u, hsecond, -, hz, hbits'⟩ := h.shr ht hy hk
    obtain ⟨z', t', honce, -, hz', honceBits⟩ := h.shr hs hx (Nat.min_le_right (j + k) ty.width)
    have hsame : z = z' := by
      apply V.ext hz hz'
      intro i hi
      rw [hbits' i hi, honceBits i hi]
      by_cases hhigh : i + k < ty.width
      · rw [if_pos hhigh, hbits _ hhigh]
        by_cases hfilled : i + k + j < ty.width
        · rw [if_pos hfilled, if_pos (by omega), show i + k + j = i + min (j + k) ty.width by omega]
        · rw [if_neg hfilled, if_neg (by omega)]
      · rw [if_neg hhigh, if_neg (by omega)]
    exact ⟨z, u, t', (Action.exec_bind_of_ok hfirst).trans hsecond, hsame ▸ honce⟩
  shl_shr {x k s} hs hx hk := by
    obtain ⟨y, t, hdown, ht, hy, hbits⟩ := h.shr hs hx hk
    obtain ⟨z, u, hup, -, hz, hbits'⟩ := h.shl ht hy hk
    refine ⟨z, u, (Action.exec_bind_of_ok hdown).trans hup, hz, fun i hi => ?_⟩
    rw [hbits' i hi]
    by_cases hlow : i < k
    · rw [if_pos hlow, if_pos hlow]
    · rw [if_neg hlow, if_neg hlow, hbits _ (by omega), if_pos (by omega), Nat.sub_add_cancel (by omega)]

end BitView

end WordCircuit
