import WordCircuit.Proofs.BitSliced.Interpretation
import WordCircuit.Proofs.ConstraintSystem.Ledger

namespace WordCircuit

open ConstraintSystem (Costs)

/-- The gates of an operation on a type, besides those that compact its exclusive ors. -/
def BinaryOp.gates (p : Modulus) (ty : ValueType) : BinaryOp → Nat
  | and | or => ty.width
  | xor => if p.isCharacteristicTwo then 0 else ty.width
  | wrappingAdd => if p.isCharacteristicTwo then 3 * (ty.width - 1) else 5 * ty.width - 3

/-- How many exclusive ors of truth values the operation asks for. -/
def BinaryOp.exclusions (ty : ValueType) : BinaryOp → Nat
  | and | or => 0
  | xor => ty.width
  | wrappingAdd => 2 * ty.width

theorem BinaryOp.gates_xor (p : Modulus) (ty : ValueType) :
    xor.gates p ty = ty.width * p.exclusiveGates := by
  change (if p.isCharacteristicTwo then 0 else ty.width) = ty.width * p.exclusiveGates
  rw [Modulus.exclusiveGates, mul_ite, Nat.mul_zero, Nat.mul_one]

/-- Each position asks for two exclusive ors, and each but the last for two conjunctions and a
    disjunction. -/
theorem BinaryOp.gates_wrappingAdd (p : Modulus) (ty : ValueType) :
    wrappingAdd.gates p ty = 2 * ty.width * p.exclusiveGates + 3 * (ty.width - 1) := by
  have hpos := ty.width_pos
  change (if p.isCharacteristicTwo then 3 * (ty.width - 1) else 5 * ty.width - 3) = _
  rw [Modulus.exclusiveGates, mul_ite, Nat.mul_zero, Nat.mul_one]
  split <;> omega

namespace BitSliced

variable {Inner : ValueType → Type} {inner : Backend ConstraintSystem Inner} {noted : Backend Ledger Inner}
  {p : Modulus} {Fits : ConstraintSystem → Inner .bool → Prop} {s t : ConstraintSystem} {ty : ValueType}
  {a b : List (Inner .bool)}

/-- The bits of a word of the type, each of which fits. -/
structure WordFits (Fits : ConstraintSystem → Inner .bool → Prop) (ty : ValueType)
    (s : ConstraintSystem) (word : List (Inner .bool)) : Prop where
  length_eq : word.length = ty.width
  fits : ∀ bit ∈ word, Fits s bit

theorem WordFits.checkWidth (ha : WordFits Fits ty s a) : checkWidth ty a = .ok () :=
  checkWidth_of_length_eq ha.length_eq

theorem wordFits_singleton {x : Inner .bool} (hx : Fits s x) : WordFits Fits .bool s [x] :=
  ⟨rfl, List.forall_mem_singleton.mpr hx⟩

theorem WordFits.length_zip (ha : WordFits Fits ty s a) (hb : WordFits Fits ty s b) :
    (a.zip b).length = ty.width := by
  rw [List.length_zip, ha.length_eq, hb.length_eq, Nat.min_self]

theorem WordFits.zip (ha : WordFits Fits ty s a) (hb : WordFits Fits ty s b) :
    ∀ pair ∈ a.zip b, Fits s pair.1 ∧ Fits s pair.2 := by
  rintro ⟨x, y⟩ hpair
  obtain ⟨hx, hy⟩ := List.of_mem_zip hpair
  exact ⟨ha.fits x hx, hb.fits y hy⟩

theorem wordFits_append {front back : List (Inner .bool)}
    (hlength : front.length + back.length = ty.width) (hfront : ∀ bit ∈ front, Fits s bit)
    (hback : ∀ bit ∈ back, Fits s bit) : WordFits Fits ty s (front ++ back) :=
  ⟨List.length_append.trans hlength, List.forall_mem_append.mpr ⟨hfront, hback⟩⟩

theorem WordFits.take (ha : WordFits Fits ty s a) (k : Nat) : ∀ bit ∈ a.take k, Fits s bit :=
  fun bit hbit => ha.fits bit (List.mem_of_mem_take hbit)

theorem WordFits.drop (ha : WordFits Fits ty s a) (k : Nat) : ∀ bit ∈ a.drop k, Fits s bit :=
  fun bit hbit => ha.fits bit (List.mem_of_mem_drop hbit)

theorem fits_replicate {x : Inner .bool} (hx : Fits s x) (k : Nat) :
    ∀ bit ∈ List.replicate k x, Fits s bit := by
  intro bit hbit
  rw [List.eq_of_mem_replicate hbit]
  exact hx

/-- A word that is cut in two and put together the other way round. -/
theorem WordFits.rotate (ha : WordFits Fits ty s a) (k : Nat) :
    WordFits Fits ty s (a.drop k ++ a.take k) := by
  have hlength := ha.length_eq
  refine wordFits_append ?_ (ha.drop k) (ha.take k)
  rw [List.length_drop, List.length_take]
  omega

/-- A loop that makes the bits of a word one by one. -/
theorem costs_mapM {ι : Type} {R : ConstraintSystem → ι → Prop}
    (hR : ∀ {s t item}, s.Extends t → R s item → R t item)
    (hfits : ∀ {s t x}, s.Extends t → Fits s x → Fits t x)
    {f : ι → Action ConstraintSystem (Inner .bool)} {g : ι → Action Ledger (Inner .bool)}
    {gates count : Nat} (hstep : ∀ {t item}, R t item → t.Costs (f item) (g item) gates count Fits)
    {items : List ι} (hlength : items.length = ty.width) (hitems : ∀ item ∈ items, R s item) :
    s.Costs (items.mapM f) (items.mapM g) (ty.width * gates) (ty.width * count) (WordFits Fits ty) := by
  rw [← hlength]
  refine (Costs.mapM (R := R) (P := Fits) hR hfits hstep hitems).imp fun t out _ hout => ?_
  exact ⟨hout.1.trans hlength, hout.2⟩

theorem costs_bitwise {op : Inner .bool → Inner .bool → Action ConstraintSystem (Inner .bool)}
    {opNoted : Inner .bool → Inner .bool → Action Ledger (Inner .bool)} {gates count : Nat}
    (hfits : ∀ {s t x}, s.Extends t → Fits s x → Fits t x)
    (hop : ∀ {s x y}, Fits s x → Fits s y → s.Costs (op x y) (opNoted x y) gates count Fits)
    (ha : WordFits Fits ty s a) (hb : WordFits Fits ty s b) :
    s.Costs (bitwise op ty a b) (bitwise opNoted ty a b) (ty.width * gates) (ty.width * count)
      (WordFits Fits ty) := by
  refine .check ha.checkWidth (.check hb.checkWidth ?_)
  apply costs_mapM (R := fun s pair => Fits s pair.1 ∧ Fits s pair.2)
  case hR => exact fun hgrows hpair => ⟨hfits hgrows hpair.1, hfits hgrows hpair.2⟩
  case hfits => exact hfits
  case hstep => exact fun hpair => hop hpair.1 hpair.2
  case hlength => exact ha.length_zip hb
  case hitems => exact ha.zip hb

section Priced

variable (hinner : inner.Priced noted p Fits)

include hinner

theorem WordFits.of_extends (ha : WordFits Fits ty s a) (h : s.Extends t) : WordFits Fits ty t a :=
  ⟨ha.length_eq, fun bit hbit => hinner.fits_of_extends h (ha.fits bit hbit)⟩

theorem costs_constantBits {d canonical : Datum} (hs : s.modulus = p) (hd : ty.validate d = .ok canonical) :
    s.Costs (constantBits inner ty d) (constantBits noted ty d) 0 0 (WordFits Fits ty) := by
  refine .check hd (Costs.of_eq ?_ (Nat.mul_zero ty.width) (Nat.mul_zero ty.width))
  apply costs_mapM (R := fun s _ => s.modulus = p)
  case hR => exact fun hgrows hs => hgrows.precedes.modulus_eq.trans hs
  case hfits => exact hinner.fits_of_extends
  case hstep => exact fun hs => hinner.constant _ hs
  case hlength => exact List.length_range
  case hitems => exact fun _ _ => hs

theorem costs_complement (ha : WordFits Fits ty s a) :
    s.Costs (complement (inner.not .bool) ty a) (complement (noted.not .bool) ty a) 0 0
      (WordFits Fits ty) := by
  refine .check ha.checkWidth (Costs.of_eq ?_ (Nat.mul_zero ty.width) (Nat.mul_zero ty.width))
  apply costs_mapM (R := Fits)
  case hR => exact hinner.fits_of_extends
  case hfits => exact hinner.fits_of_extends
  case hstep => exact hinner.not
  case hlength => exact ha.length_eq
  case hitems => exact ha.fits

section Movement

variable {amount : Datum} {k : Nat} (ha : WordFits Fits ty s a)

include ha

theorem costs_shiftUp (hs : s.modulus = p) (hamount : ty.shiftAmount amount false = .ok k) :
    s.Costs (shiftUp inner ty amount a) (shiftUp noted ty amount a) 0 0 (WordFits Fits ty) := by
  have hk : k ≤ ty.width := ValueType.shiftAmount_le hamount
  refine .check hamount (.check ha.checkWidth ?_)
  refine (hinner.constant false hs).bind fun t zero hgrows hzero => .pure ?_
  have ha' := ha.of_extends hinner hgrows
  have hlength := ha.length_eq
  refine wordFits_append ?_ (fits_replicate hzero k) (ha'.take (ty.width - k))
  rw [List.length_replicate, List.length_take]
  omega

theorem costs_shiftDown (hs : s.modulus = p) (hamount : ty.shiftAmount amount false = .ok k) :
    s.Costs (shiftDown inner ty amount a) (shiftDown noted ty amount a) 0 0 (WordFits Fits ty) := by
  have hk : k ≤ ty.width := ValueType.shiftAmount_le hamount
  refine .check hamount (.check ha.checkWidth ?_)
  refine (hinner.constant false hs).bind fun t zero hgrows hzero => .pure ?_
  have ha' := ha.of_extends hinner hgrows
  have hlength := ha.length_eq
  refine wordFits_append ?_ (ha'.drop k) (fits_replicate hzero k)
  rw [List.length_drop, List.length_replicate]
  omega

omit hinner in
theorem costs_rotateUp (hamount : ty.shiftAmount amount true = .ok k) :
    s.Costs (rotateUp ty amount a) (rotateUp ty amount a) 0 0 (WordFits Fits ty) :=
  .check hamount (.check ha.checkWidth (.pure (ha.rotate (ty.width - k))))

omit hinner in
theorem costs_rotateDown (hamount : ty.shiftAmount amount true = .ok k) :
    s.Costs (rotateDown ty amount a) (rotateDown ty amount a) 0 0 (WordFits Fits ty) :=
  .check hamount (.check ha.checkWidth (.pure (ha.rotate k)))

end Movement

/-- The adder pays for two exclusive ors in each position, and for a new carry in each but the last. -/
theorem costs_ripple {pairs : List (Inner .bool × Inner .bool)} {carry : Inner .bool}
    (hpairs : ∀ pair ∈ pairs, Fits s pair.1 ∧ Fits s pair.2) (hcarry : Fits s carry) :
    s.Costs (ripple inner carry pairs) (ripple noted carry pairs)
      (2 * pairs.length * p.exclusiveGates + 3 * (pairs.length - 1)) (2 * pairs.length)
      fun t out => out.length = pairs.length ∧ ∀ bit ∈ out, Fits t bit := by
  induction pairs generalizing s carry with
  | nil =>
    rw [List.length_nil, Nat.mul_zero, Nat.zero_mul]
    exact .pure ⟨rfl, fun _ hbit => nomatch hbit⟩
  | cons pair rest ih =>
    obtain ⟨x, y⟩ := pair
    rw [List.forall_mem_cons] at hpairs
    obtain ⟨⟨hx, hy⟩, hrest⟩ := hpairs
    rw [ripple, ripple, List.length_cons]
    by_cases hlast : rest.isEmpty
    · obtain rfl := List.isEmpty_iff.mp hlast
      have hgates (n : Nat) : 2 * (0 + 1) * n + 3 * (0 + 1 - 1) = n + (n + 0) := by omega
      rw [List.length_nil, hgates]
      change s.Costs _ _ _ (1 + (1 + 0)) _
      refine (hinner.xor hx hy).bind fun t₁ q h₁ hq => ?_
      have hcarry₁ := hinner.fits_of_extends h₁ hcarry
      refine (hinner.xor hq hcarry₁).bind fun t₂ sum h₂ hsum => ?_
      exact .pure ⟨rfl, List.forall_mem_singleton.mpr hsum⟩
    · have hpos : 0 < rest.length := by
        rw [List.length_pos_iff]
        exact fun hnil => hlast (List.isEmpty_iff.mpr hnil)
      have hgates (n : Nat) : 2 * (rest.length + 1) * n + 3 * (rest.length + 1 - 1) =
          n + (n + (1 + (1 + (1 + (2 * rest.length * n + 3 * (rest.length - 1) + 0))))) := by
        rw [Nat.mul_add, Nat.add_mul]
        omega
      have hcount : 2 * (rest.length + 1) = 1 + (1 + (0 + (0 + (0 + (2 * rest.length + 0))))) := by omega
      rw [hgates, hcount]
      refine (hinner.xor hx hy).bind fun t₁ q h₁ hq => ?_
      have hcarry₁ := hinner.fits_of_extends h₁ hcarry
      refine (hinner.xor hq hcarry₁).bind fun t₂ sum h₂ hsum => ?_
      rw [if_neg hlast, if_neg hlast]
      have h₁₂ := h₁.trans h₂
      have hx₂ := hinner.fits_of_extends h₁₂ hx
      have hy₂ := hinner.fits_of_extends h₁₂ hy
      refine (hinner.and hx₂ hy₂).bind fun t₃ both h₃ hboth => ?_
      have hcarry₃ := hinner.fits_of_extends (h₂.trans h₃) hcarry₁
      have hq₃ := hinner.fits_of_extends (h₂.trans h₃) hq
      refine (hinner.and hcarry₃ hq₃).bind fun t₄ passed h₄ hpassed => ?_
      have hboth₄ := hinner.fits_of_extends h₄ hboth
      refine (hinner.or hboth₄ hpassed).bind fun t₅ next h₅ hnext => ?_
      have hlater := (h₃.trans h₄).trans h₅
      have hrest₅ : ∀ pair ∈ rest, Fits t₅ pair.1 ∧ Fits t₅ pair.2 := by
        intro pair hpair
        have hgrows := h₁₂.trans hlater
        obtain ⟨hfirst, hsecond⟩ := hrest pair hpair
        exact ⟨hinner.fits_of_extends hgrows hfirst, hinner.fits_of_extends hgrows hsecond⟩
      refine (ih hrest₅ hnext).bind fun t₆ out h₆ hout => .pure ⟨congrArg Nat.succ hout.1, ?_⟩
      have hsum₆ := hinner.fits_of_extends (hlater.trans h₆) hsum
      exact List.forall_mem_cons.mpr ⟨hsum₆, hout.2⟩

theorem costs_addBits (hs : s.modulus = p) (ha : WordFits Fits ty s a) (hb : WordFits Fits ty s b) :
    s.Costs (addBits inner ty a b) (addBits noted ty a b) (BinaryOp.wrappingAdd.gates p ty)
      (BinaryOp.wrappingAdd.exclusions ty) (WordFits Fits ty) := by
  refine .check ha.checkWidth (.check hb.checkWidth ?_)
  refine Costs.of_eq ?_ (Nat.zero_add _) (Nat.zero_add _)
  refine (hinner.constant false hs).bind fun t carry hgrows hcarry => ?_
  have ha' := ha.of_extends hinner hgrows
  have hb' := hb.of_extends hinner hgrows
  have hripple := costs_ripple hinner (ha'.zip hb') hcarry
  rw [ha.length_zip hb, ← BinaryOp.gates_wrappingAdd] at hripple
  exact hripple.imp fun _ _ _ hout => ⟨hout.1, hout.2⟩

section Backend

variable {table : Table} (hrepresents : table.represents ty = true)

include hrepresents

theorem costs_words_binary (op : BinaryOp) (hs : s.modulus = p)
    (hsupports : table.supports ty op.capability = true) (ha : WordFits Fits ty s a)
    (hb : WordFits Fits ty s b) :
    s.Costs (op.run (words inner table) ty a b) (op.run (words noted table) ty a b) (op.gates p ty)
      (op.exclusions ty) (WordFits Fits ty) := by
  have hrequire (operation : String) : table.require name ty op.capability operation = .ok () :=
    Table.require_of_represents hrepresents hsupports name operation
  cases op with
  | and =>
    refine .check (hrequire _) (Costs.of_eq ?_ (Nat.mul_one ty.width) (Nat.mul_zero ty.width))
    exact costs_bitwise hinner.fits_of_extends hinner.and ha hb
  | or =>
    refine .check (hrequire _) (Costs.of_eq ?_ (Nat.mul_one ty.width) (Nat.mul_zero ty.width))
    exact costs_bitwise hinner.fits_of_extends hinner.or ha hb
  | xor =>
    refine .check (hrequire _) (Costs.of_eq ?_ (BinaryOp.gates_xor p ty).symm (Nat.mul_one ty.width))
    exact costs_bitwise hinner.fits_of_extends hinner.xor ha hb
  | wrappingAdd => exact .check (hrequire _) (costs_addBits hinner hs ha hb)

theorem costs_words_shift (op : ShiftOp) (hs : s.modulus = p)
    (hsupports : table.supports ty op.capability = true) (ha : WordFits Fits ty s a) {amount : Datum}
    {k : Nat} (hamount : ty.shiftAmount amount op.isRotation = .ok k) :
    s.Costs (op.run (words inner table) ty a amount) (op.run (words noted table) ty a amount) 0 0
      (WordFits Fits ty) := by
  have hrequire (operation : String) : table.require name ty op.capability operation = .ok () :=
    Table.require_of_represents hrepresents hsupports name operation
  cases op with
  | shl => exact .check (hrequire _) (costs_shiftUp hinner ha hs hamount)
  | shr => exact .check (hrequire _) (costs_shiftDown hinner ha hs hamount)
  | rotl => exact .check (hrequire _) (costs_rotateUp ha hamount)
  | rotr => exact .check (hrequire _) (costs_rotateDown ha hamount)

theorem costs_backend_constant (hs : s.modulus = p) (hsupports : table.supports ty .none = true)
    {d canonical : Datum} (hd : ty.validate d = .ok canonical) :
    s.Costs ((backend inner table).constant ty d) ((backend noted table).constant ty d) 0 0
      fun t x => WordFits Fits ty t (bits ty x) := by
  have hrequire := Table.require_of_represents hrepresents hsupports name "constant"
  cases ty with
  | bool =>
    rw [ValueType.eq_datum_of_validate hd] at hd
    refine .check hrequire (.check hd ?_)
    exact (hinner.constant _ hs).imp fun _ _ _ hx => wordFits_singleton hx
  | u8 => exact .check hrequire (costs_constantBits hinner hs hd)
  | u32 => exact .check hrequire (costs_constantBits hinner hs hd)

theorem costs_backend_binary (op : BinaryOp) (hs : s.modulus = p)
    (hsupports : table.supports ty op.capability = true) (hadd : op = .wrappingAdd → ty.isWord = true)
    {x y : Handle (Inner .bool) ty} (hx : WordFits Fits ty s (bits ty x))
    (hy : WordFits Fits ty s (bits ty y)) :
    s.Costs (op.run (backend inner table) ty x y) (op.run (backend noted table) ty x y) (op.gates p ty)
      (op.exclusions ty) fun t z => WordFits Fits ty t (bits ty z) := by
  cases ty with
  | bool =>
    have hrequire (operation : String) : table.require name .bool op.capability operation = .ok () :=
      Table.require_of_represents hrepresents hsupports name operation
    have hx' : Fits s x := List.forall_mem_singleton.mp hx.fits
    have hy' : Fits s y := List.forall_mem_singleton.mp hy.fits
    cases op with
    | and => exact .check (hrequire _) ((hinner.and hx' hy').imp fun _ _ _ hz => wordFits_singleton hz)
    | or => exact .check (hrequire _) ((hinner.or hx' hy').imp fun _ _ _ hz => wordFits_singleton hz)
    | xor => exact .check (hrequire _) ((hinner.xor hx' hy').imp fun _ _ _ hz => wordFits_singleton hz)
    | wrappingAdd => cases hadd rfl
  | u8 =>
    have hword := costs_words_binary hinner hrepresents op hs hsupports hx hy
    cases op <;> exact hword
  | u32 =>
    have hword := costs_words_binary hinner hrepresents op hs hsupports hx hy
    cases op <;> exact hword

theorem costs_backend_not (hsupports : table.supports ty .not = true) {x : Handle (Inner .bool) ty}
    (hx : WordFits Fits ty s (bits ty x)) :
    s.Costs ((backend inner table).not ty x) ((backend noted table).not ty x) 0 0
      fun t z => WordFits Fits ty t (bits ty z) := by
  have hrequire := Table.require_of_represents hrepresents hsupports name "not"
  cases ty with
  | bool =>
    have hx' : Fits s x := List.forall_mem_singleton.mp hx.fits
    exact .check hrequire ((hinner.not hx').imp fun _ _ _ hz => wordFits_singleton hz)
  | u8 => exact .check hrequire (costs_complement hinner hx)
  | u32 => exact .check hrequire (costs_complement hinner hx)

theorem costs_backend_shift (op : ShiftOp) (hs : s.modulus = p)
    (hsupports : table.supports ty op.capability = true) (hword : ty.isWord = true)
    {x : Handle (Inner .bool) ty} (hx : WordFits Fits ty s (bits ty x)) {amount : Datum} {k : Nat}
    (hamount : ty.shiftAmount amount op.isRotation = .ok k) :
    s.Costs (op.run (backend inner table) ty x amount) (op.run (backend noted table) ty x amount) 0 0
      fun t z => WordFits Fits ty t (bits ty z) := by
  have hcosts := costs_words_shift hinner hrepresents op hs hsupports hx hamount
  cases ty with
  | bool => cases hword
  | u8 => cases op <;> exact hcosts
  | u32 => cases op <;> exact hcosts

end Backend

end Priced

end BitSliced

end WordCircuit
