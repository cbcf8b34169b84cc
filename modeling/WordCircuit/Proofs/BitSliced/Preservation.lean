import WordCircuit.Proofs.BitSliced.Interpretation
import WordCircuit.Proofs.Preservation

namespace WordCircuit.BitSliced

open WordCircuit.Frame (Keeps)

variable {σ : Type} {Inner : ValueType → Type} {inner : Backend σ Inner} {F : Frame σ}
  {Fits : F.World → (ty : ValueType) → Inner ty → Prop} {w : F.World} {ty : ValueType}

/-- All bits of a word fit. -/
abbrev AllFit (Fits : F.World → (ty : ValueType) → Inner ty → Prop) (w : F.World)
    (word : List (Inner .bool)) : Prop :=
  ∀ bit ∈ word, Fits w .bool bit

theorem allFit_append {w : F.World} {a b : List (Inner .bool)} (ha : AllFit Fits w a)
    (hb : AllFit Fits w b) : AllFit Fits w (a ++ b) :=
  List.forall_mem_append.mpr ⟨ha, hb⟩

theorem allFit_take {w : F.World} {a : List (Inner .bool)} (ha : AllFit Fits w a) (k : Nat) :
    AllFit Fits w (a.take k) :=
  fun bit hbit => ha bit (List.mem_of_mem_take hbit)

theorem allFit_drop {w : F.World} {a : List (Inner .bool)} (ha : AllFit Fits w a) (k : Nat) :
    AllFit Fits w (a.drop k) :=
  fun bit hbit => ha bit (List.mem_of_mem_drop hbit)

theorem allFit_replicate {w : F.World} {x : Inner .bool} (hx : Fits w .bool x) (k : Nat) :
    AllFit Fits w (List.replicate k x) := by
  intro bit hbit
  rw [List.eq_of_mem_replicate hbit]
  exact hx

theorem allFit_zip {w : F.World} {a b : List (Inner .bool)} (ha : AllFit Fits w a)
    (hb : AllFit Fits w b) :
    ∀ pair ∈ a.zip b, Fits w .bool pair.1 ∧ Fits w .bool pair.2 := by
  rintro ⟨x, y⟩ hpair
  obtain ⟨hx, hy⟩ := List.of_mem_zip hpair
  exact ⟨ha x hx, hb y hy⟩

section Words

variable (hinner : inner.Keeps F Fits) {a b : List (Inner .bool)}

include hinner

theorem allFit_of_grows {w w' : F.World} (hgrows : F.Grows w w') (ha : AllFit Fits w a) :
    AllFit Fits w' a :=
  fun bit hbit => hinner.fits_of_grows hgrows (ha bit hbit)

theorem keeps_constantBits (d : Datum) :
    F.Keeps w (constantBits inner ty d) (AllFit Fits) := by
  unfold constantBits
  refine .after_check fun canonical _ => ?_
  apply Keeps.mapM (P := (Fits · .bool)) (R := fun _ _ => True)
  · exact fun _ _ => trivial
  · exact hinner.fits_of_grows
  · exact fun _ => hinner.constant .bool _
  · exact fun _ _ => trivial

theorem keeps_bitwise {op : Inner .bool → Inner .bool → Action σ (Inner .bool)}
    (hop : ∀ {w x y}, Fits w .bool x → Fits w .bool y → F.Keeps w (op x y) (Fits · .bool))
    (ha : AllFit Fits w a) (hb : AllFit Fits w b) :
    F.Keeps w (bitwise op ty a b) (AllFit Fits) := by
  unfold bitwise
  refine .after_check fun _ _ => .after_check fun _ _ => ?_
  apply Keeps.mapM (P := (Fits · .bool))
    (R := fun u pair => Fits u .bool pair.1 ∧ Fits u .bool pair.2)
  · rintro u v pair hgrows ⟨hx, hy⟩
    exact ⟨hinner.fits_of_grows hgrows hx, hinner.fits_of_grows hgrows hy⟩
  · exact hinner.fits_of_grows
  · rintro u pair ⟨hx, hy⟩
    exact hop hx hy
  · exact allFit_zip ha hb

theorem keeps_complement (ha : AllFit Fits w a) :
    F.Keeps w (complement (inner.not .bool) ty a) (AllFit Fits) := by
  unfold complement
  refine .after_check fun _ _ => ?_
  exact Keeps.mapM (P := (Fits · .bool)) (R := (Fits · .bool)) hinner.fits_of_grows
    hinner.fits_of_grows (hinner.not .bool) ha

theorem keeps_shiftUp (amount : Datum) (ha : AllFit Fits w a) :
    F.Keeps w (shiftUp inner ty amount a) (AllFit Fits) := by
  unfold shiftUp
  refine .after_check fun k _ => .after_check fun _ _ => ?_
  refine (hinner.constant .bool _).bind fun w' zero hgrows hzero => ?_
  apply Keeps.pure
  have ha' := allFit_of_grows hinner hgrows ha
  exact allFit_append (allFit_replicate hzero k) (allFit_take ha' _)

theorem keeps_shiftDown (amount : Datum) (ha : AllFit Fits w a) :
    F.Keeps w (shiftDown inner ty amount a) (AllFit Fits) := by
  unfold shiftDown
  refine .after_check fun k _ => .after_check fun _ _ => ?_
  refine (hinner.constant .bool _).bind fun w' zero hgrows hzero => ?_
  apply Keeps.pure
  have ha' := allFit_of_grows hinner hgrows ha
  exact allFit_append (allFit_drop ha' k) (allFit_replicate hzero k)

/-- The adder only ever works on bits of the two words and on what it has made of them. -/
theorem keeps_ripple {pairs : List (Inner .bool × Inner .bool)} {carry : Inner .bool}
    (hpairs : ∀ pair ∈ pairs, Fits w .bool pair.1 ∧ Fits w .bool pair.2)
    (hcarry : Fits w .bool carry) : F.Keeps w (ripple inner carry pairs) (AllFit Fits) := by
  induction pairs generalizing w carry with
  | nil =>
    apply Keeps.pure
    intro bit hbit
    cases hbit
  | cons pair rest ih =>
    obtain ⟨x, y⟩ := pair
    rw [List.forall_mem_cons] at hpairs
    obtain ⟨⟨hx, hy⟩, hrest⟩ := hpairs
    rw [ripple]
    refine (hinner.binary .xor .bool hx hy).bind fun w₁ p h₁ hp => ?_
    have hcarry₁ := hinner.fits_of_grows h₁ hcarry
    refine (hinner.binary .xor .bool hp hcarry₁).bind fun w₂ sum h₂ hsum => ?_
    split
    · apply Keeps.pure
      exact List.forall_mem_singleton.mpr hsum
    · have h₁₂ := F.grows_trans h₁ h₂
      have hx₂ := hinner.fits_of_grows h₁₂ hx
      have hy₂ := hinner.fits_of_grows h₁₂ hy
      refine (hinner.binary .and .bool hx₂ hy₂).bind fun w₃ both h₃ hboth => ?_
      have hcarry₃ := hinner.fits_of_grows (F.grows_trans h₁₂ h₃) hcarry
      have hp₃ := hinner.fits_of_grows (F.grows_trans h₂ h₃) hp
      refine (hinner.binary .and .bool hcarry₃ hp₃).bind fun w₄ passed h₄ hpassed => ?_
      have hboth₄ := hinner.fits_of_grows h₄ hboth
      refine (hinner.binary .or .bool hboth₄ hpassed).bind fun w₅ next h₅ hnext => ?_
      have hlater := F.grows_trans (F.grows_trans h₃ h₄) h₅
      have hrest₅ : ∀ pair ∈ rest, Fits w₅ .bool pair.1 ∧ Fits w₅ .bool pair.2 := by
        intro pair hpair
        have hgrows := F.grows_trans h₁₂ hlater
        obtain ⟨hfirst, hsecond⟩ := hrest pair hpair
        exact ⟨hinner.fits_of_grows hgrows hfirst, hinner.fits_of_grows hgrows hsecond⟩
      refine (ih hrest₅ hnext).bind fun w₆ out h₆ hout => ?_
      apply Keeps.pure
      have hsum₆ := hinner.fits_of_grows (F.grows_trans hlater h₆) hsum
      exact List.forall_mem_cons.mpr ⟨hsum₆, hout⟩

theorem keeps_addBits (ha : AllFit Fits w a) (hb : AllFit Fits w b) :
    F.Keeps w (addBits inner ty a b) (AllFit Fits) := by
  unfold addBits
  refine .after_check fun _ _ => .after_check fun _ _ => ?_
  refine (hinner.constant .bool _).bind fun w' carry hgrows hcarry => ?_
  have ha' := allFit_of_grows hinner hgrows ha
  have hb' := allFit_of_grows hinner hgrows hb
  exact keeps_ripple hinner (allFit_zip ha' hb') hcarry

/-- Words over a backend that keeps its handles in order have bits that are in order. -/
theorem words_keeps (table : Table) :
    (words inner table).Keeps F fun w _ => AllFit Fits w := by
  constructor
  case fits_of_grows => exact fun hgrows ha => allFit_of_grows hinner hgrows ha
  case constant => exact fun ty d => .after_check fun _ _ => keeps_constantBits hinner d
  case binary =>
    intro w op ty a b ha hb
    cases op with
    | and => exact .after_check fun _ _ => keeps_bitwise hinner (hinner.binary .and .bool) ha hb
    | or => exact .after_check fun _ _ => keeps_bitwise hinner (hinner.binary .or .bool) ha hb
    | xor => exact .after_check fun _ _ => keeps_bitwise hinner (hinner.binary .xor .bool) ha hb
    | wrappingAdd => exact .after_check fun _ _ => keeps_addBits hinner ha hb
  case not => exact fun ty a ha => .after_check fun _ _ => keeps_complement hinner ha
  case shift =>
    intro w op ty a amount ha
    cases op with
    | shl => exact .after_check fun _ _ => keeps_shiftUp hinner amount ha
    | shr => exact .after_check fun _ _ => keeps_shiftDown hinner amount ha
    | rotl =>
      refine .after_check fun _ _ => .after_check fun k _ => .after_check fun _ _ => ?_
      apply Keeps.pure
      exact allFit_append (allFit_drop ha _) (allFit_take ha _)
    | rotr =>
      refine .after_check fun _ _ => .after_check fun k _ => .after_check fun _ _ => ?_
      apply Keeps.pure
      exact allFit_append (allFit_drop ha k) (allFit_take ha k)

/-- Slicing over a backend that keeps its handles in order has handles whose bits are in
    order. -/
theorem backend_keeps (table : Table) :
    (backend inner table).Keeps F fun w ty x => AllFit Fits w (bits ty x) := by
  have hwords := words_keeps hinner table
  have hsingle {w : F.World} {act : Action σ (Inner .bool)} (hact : F.Keeps w act (Fits · .bool)) :
      F.Keeps w act fun w' bit => AllFit Fits w' [bit] :=
    hact.imp fun _ _ _ hbit => List.forall_mem_singleton.mpr hbit
  constructor
  case fits_of_grows => exact fun hgrows hx => allFit_of_grows hinner hgrows hx
  case constant =>
    intro w ty d
    cases ty with
    | bool =>
      refine .after_check fun _ _ => .after_check fun _ _ => ?_
      exact hsingle (hinner.constant .bool _)
    | u8 => exact hwords.constant .u8 d
    | u32 => exact hwords.constant .u32 d
  case binary =>
    intro w op ty x y hx hy
    cases ty with
    | bool =>
      have hx' : Fits w .bool x := List.forall_mem_singleton.mp hx
      have hy' : Fits w .bool y := List.forall_mem_singleton.mp hy
      cases op with
      | and => exact hsingle (.after_check fun _ _ => hinner.binary .and .bool hx' hy')
      | or => exact hsingle (.after_check fun _ _ => hinner.binary .or .bool hx' hy')
      | xor => exact hsingle (.after_check fun _ _ => hinner.binary .xor .bool hx' hy')
      | wrappingAdd => exact .after_check fun _ _ => .stop
    | u8 =>
      have hword := hwords.binary op .u8 hx hy
      cases op <;> exact hword
    | u32 =>
      have hword := hwords.binary op .u32 hx hy
      cases op <;> exact hword
  case not =>
    intro w ty x hx
    cases ty with
    | bool =>
      have hx' : Fits w .bool x := List.forall_mem_singleton.mp hx
      exact hsingle (.after_check fun _ _ => hinner.not .bool hx')
    | u8 => exact hwords.not .u8 hx
    | u32 => exact hwords.not .u32 hx
  case shift =>
    intro w op ty x amount hx
    cases ty with
    | bool => cases op <;> exact .after_check fun _ _ => .after_check fun _ _ => .stop
    | u8 =>
      have hword := hwords.shift op .u8 amount hx
      cases op <;> exact hword
    | u32 =>
      have hword := hwords.shift op .u32 amount hx
      cases op <;> exact hword

end Words

end WordCircuit.BitSliced
