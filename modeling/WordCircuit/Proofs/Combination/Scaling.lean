import WordCircuit.Datum.Arithmetic
import WordCircuit.Proofs.Combination.Canonical
import WordCircuit.Proofs.Scalar

namespace WordCircuit

namespace Element

theorem add_int_ofClass (p : Modulus) (a : ZMod p.size) (n : Int) :
    (ofClass p a).add (.int n) = .ok (ofClass p (a + n)) := by
  simp [add, coerce, Except.map, Number.add, Number.combine, ofNumber_int]

end Element

theorem Operand.StandsFor.add_ofClass {p : Modulus} {operand : Operand} {term : ZMod p.size}
    (h : operand.StandsFor p term) (a : ZMod p.size) :
    (Element.ofClass p a).add operand = .ok (.ofClass p (a + term)) := by
  cases h with
  | int n => exact Element.add_int_ofClass p a n
  | element => exact Element.add_ofClass p a _

namespace Scalar

/-- The number is an integer by itself or belongs to the field. -/
def ActsOn (p : Modulus) (s : Scalar) : Prop :=
  ∀ q, s.modulus? = some q → q = p

theorem val_lt_size (p : Modulus) (z : ZMod p.size) : z.val < p.size :=
  z.val_lt

/-- The residue of a class. -/
def ofClass (p : Modulus) (z : ZMod p.size) : Scalar :=
  residue ⟨p, z.val, val_lt_size p z⟩

theorem actsOn_ofClass (p : Modulus) (z : ZMod p.size) : (ofClass p z).ActsOn p := by
  intro q hq
  exact (Option.some.inj hq).symm

theorem value_ofClass (p : Modulus) (z : ZMod p.size) : ((ofClass p z).value : ZMod p.size) = z := by
  simp [ofClass, value]

variable {p : Modulus} {s t : Scalar}

theorem ActsOn.cases (hs : s.ActsOn p) : s.modulus? = none ∨ ∃ z, s = ofClass p z := by
  cases s with
  | truth b => exact .inl rfl
  | integer n => exact .inl rfl
  | residue r =>
    obtain ⟨q, n, hn⟩ := r
    obtain rfl : q = p := hs q rfl
    refine .inr ⟨n, ?_⟩
    simp only [ofClass, ZMod.val_natCast_of_lt hn]

theorem ActsOn.standsFor (hs : s.ActsOn p) : s.datum.operand.StandsFor p s.value := by
  obtain hmodulus | ⟨z, rfl⟩ := hs.cases
  · cases s with
    | truth b => exact .int _
    | integer n => exact .int n
    | residue r => cases hmodulus
  · rw [value_ofClass]
    exact .element z

/-- How sums and products of numbers go: two integers are combined as integers, and an element
    on either side takes the other operand. -/
structure Combines (p : Modulus) (op : Datum → Datum → Except Fault Datum)
    (onElement : Element → Operand → Except Fault Element)
    (f : ZMod p.size → ZMod p.size → ZMod p.size) : Prop where
  integers : ∀ {s t : Scalar}, s.modulus? = none → t.modulus? = none →
    ∃ n : Int, op s.datum t.datum = .ok (.int n) ∧ (n : ZMod p.size) = f s.value t.value
  left : ∀ (e : Element) (d : Datum), op (.element e) d = (onElement e d.operand).map .element
  right : ∀ {s : Scalar} (e : Element), s.modulus? = none →
    op s.datum (.element e) = (onElement e s.datum.operand).map .element
  onElement : ∀ {operand : Operand} {b : ZMod p.size} (a : ZMod p.size), operand.StandsFor p b →
    onElement (.ofClass p a) operand = .ok (.ofClass p (f a b))
  comm : ∀ a b, f a b = f b a

theorem Combines.exists_scalar {op : Datum → Datum → Except Fault Datum}
    {onElement : Element → Operand → Except Fault Element}
    {f : ZMod p.size → ZMod p.size → ZMod p.size} (h : Combines p op onElement f) (hs : s.ActsOn p)
    (ht : t.ActsOn p) :
    ∃ u : Scalar, op s.datum t.datum = .ok u.datum ∧ u.ActsOn p ∧
      (u.value : ZMod p.size) = f s.value t.value := by
  have hresidue (z : ZMod p.size) {r : Scalar} (hr : r.ActsOn p) :
      (onElement (.ofClass p z) r.datum.operand).map .element = .ok (ofClass p (f z r.value)).datum := by
    rw [h.onElement z hr.standsFor]
    rfl
  obtain hs' | ⟨z, rfl⟩ := hs.cases
  · obtain ht' | ⟨z, rfl⟩ := ht.cases
    · obtain ⟨n, hop, hn⟩ := h.integers hs' ht'
      refine ⟨integer n, hop, ?_, hn⟩
      intro q hq
      cases hq
    · refine ⟨ofClass p (f z s.value), ?_, actsOn_ofClass _ _, ?_⟩
      · exact (h.right _ hs').trans (hresidue z hs)
      · rw [value_ofClass, value_ofClass, h.comm]
  · refine ⟨ofClass p (f z t.value), ?_, actsOn_ofClass _ _, ?_⟩
    · exact (h.left _ _).trans (hresidue z ht)
    · rw [value_ofClass, value_ofClass]

theorem eq_of_modulus?_eq_none (hs : s.modulus? = none) :
    (∃ b, s = truth b) ∨ ∃ n, s = integer n := by
  cases s with
  | truth b => exact .inl ⟨b, rfl⟩
  | integer n => exact .inr ⟨n, rfl⟩
  | residue r => cases hs

theorem combines_add (p : Modulus) : Combines p Datum.add Element.add fun a b => a + b where
  integers {s t} hs ht := by
    refine ⟨s.value + t.value, ?_, Int.cast_add _ _⟩
    obtain ⟨a, rfl⟩ | ⟨m, rfl⟩ := eq_of_modulus?_eq_none hs <;>
      obtain ⟨b, rfl⟩ | ⟨n, rfl⟩ := eq_of_modulus?_eq_none ht <;> rfl
  left e d := rfl
  right e hs := by
    obtain ⟨b, rfl⟩ | ⟨n, rfl⟩ := eq_of_modulus?_eq_none hs <;> rfl
  onElement a hb := hb.add_ofClass a
  comm := add_comm

theorem combines_mul (p : Modulus) : Combines p Datum.mul Element.mul fun a b => a * b where
  integers {s t} hs ht := by
    refine ⟨s.value * t.value, ?_, Int.cast_mul _ _⟩
    obtain ⟨a, rfl⟩ | ⟨m, rfl⟩ := eq_of_modulus?_eq_none hs <;>
      obtain ⟨b, rfl⟩ | ⟨n, rfl⟩ := eq_of_modulus?_eq_none ht <;> rfl
  left e d := rfl
  right e hs := by
    obtain ⟨b, rfl⟩ | ⟨n, rfl⟩ := eq_of_modulus?_eq_none hs <;> rfl
  onElement a hb := hb.mul_ofClass a
  comm := mul_comm

end Scalar

namespace Datum

variable {p : Modulus} {f g : (Int → ZMod p.size) → ZMod p.size} {m n : Except Fault Datum}
  {x y : Combination} {s t : Scalar}

/-- The computation gives a combination over the field, which stands for the affine function. -/
def Makes (p : Modulus) (f : (Int → ZMod p.size) → ZMod p.size) (m : Except Fault Datum) : Prop :=
  ∃ x : Combination, m = .ok (.combination x) ∧ x.Over p ∧ ∀ v, x.denote p v = f v

/-- Both computations succeed, and their results are equal. -/
def Equated (m n : Except Fault Datum) : Prop :=
  ∃ a b, m = .ok a ∧ n = .ok b ∧ a.same b = true

/-- Combinations that stand for one affine function are equal, however they have been computed. -/
theorem Makes.equated (hm : Makes p f m) (hn : Makes p g n) (h : ∀ v, f v = g v) : Equated m n := by
  obtain ⟨x, rfl, hx, hf⟩ := hm
  obtain ⟨y, rfl, hy, hg⟩ := hn
  refine ⟨.combination x, .combination y, rfl, rfl, ?_⟩
  refine (Combination.same_iff_denote_eq hx hy).mpr fun v => ?_
  rw [hf, hg, h]

theorem makes_combination (hx : x.Over p) : Makes p (x.denote p ·) (.ok (.combination x)) :=
  ⟨x, rfl, hx, fun _ => rfl⟩

theorem Makes.mul (hm : Makes p f m) (hs : s.ActsOn p) :
    Makes p (fun v => f v * s.value) (m >>= fun a => a.mul s.datum) := by
  obtain ⟨x, rfl, hx, hf⟩ := hm
  obtain ⟨z, hscale, hcombines⟩ := Combination.exists_scale hx hs.standsFor
  refine ⟨z, ?_, hcombines.over_field, fun v => ?_⟩
  · change (x.scale s.datum.operand).map Datum.combination = _
    rw [hscale]
    rfl
  · rw [hcombines.denote_eq, hf]

theorem Makes.add (hm : Makes p f m) (hn : Makes p g n) :
    Makes p (fun v => f v + g v) (do (← m).add (← n)) := by
  obtain ⟨x, rfl, hx, hf⟩ := hm
  obtain ⟨y, rfl, hy, hg⟩ := hn
  obtain ⟨z, hadd, hcombines⟩ := Combination.exists_add hx hy
  refine ⟨z, ?_, hcombines.over_field, fun v => ?_⟩
  · change (x.add y).map Datum.combination = _
    rw [hadd]
    rfl
  · rw [hcombines.denote_eq, hf, hg]

/-- The zero of the field, which is what a product with the modulus comes to. -/
theorem makes_zero (p : Modulus) : Makes p (fun _ => 0) (.ok (.combination (.zero (.exact p)))) := by
  refine ⟨_, rfl, Combination.over_ofElement ?_, fun v => ?_⟩
  · rw [Element.zero_exact]
    exact Element.over_ofClass p 0
  · rw [Combination.zero, Combination.denote_ofElement, Element.zero_exact, Element.residue_ofClass]

/-- A scalar may stand on the left exactly if it is an integer. -/
theorem mul_combination_of_integer (hs : s.modulus? = none) (x : Combination) :
    s.datum.mul (.combination x) = (combination x).mul s.datum := by
  obtain ⟨b, rfl⟩ | ⟨n, rfl⟩ := Scalar.eq_of_modulus?_eq_none hs <;> rfl

theorem mul_combination_of_residue (hs : s.modulus? ≠ none) (x : Combination) :
    s.datum.mul (.combination x) = .error (.notAnOperand "LinearCombination") := by
  cases s with
  | truth b => exact absurd rfl hs
  | integer n => exact absurd rfl hs
  | residue r => rfl

end Datum

namespace Combination

open Datum Scalar

/-- Combinations are multiplied by integers and by elements of their field, the scalar on the right,
    as vectors are: multiples of multiples and sums of multiples are multiples, a sum is multiplied
    term by term, one keeps a combination as it is and the modulus makes it zero. An integer may
    stand on the left as well, with an equal result. An element on the left refuses the
    combination. -/
theorem scalars_act_from_the_right {p : Modulus} {x y : Combination} (hx : x.Over p)
    (hy : y.Over p) {s t : Scalar} (hs : s.ActsOn p) (ht : t.ActsOn p) :
    (∃ multiple, (combination x).mul s.datum = .ok (.combination multiple)) ∧
    (s.modulus? = none → Equated (s.datum.mul (.combination x)) ((combination x).mul s.datum)) ∧
    (s.modulus? ≠ none →
      s.datum.mul (.combination x) = .error (.notAnOperand "LinearCombination")) ∧
    Equated (do (← (combination x).mul s.datum).mul t.datum)
      (do (combination x).mul (← s.datum.mul t.datum)) ∧
    Equated (do (← (combination x).mul s.datum).add (← (combination x).mul t.datum))
      (do (combination x).mul (← s.datum.add t.datum)) ∧
    Equated (do (← (combination x).add (.combination y)).mul s.datum)
      (do (← (combination x).mul s.datum).add (← (combination y).mul s.datum)) ∧
    Equated ((combination x).mul (.int 1)) (.ok (.combination x)) ∧
    Equated ((combination x).mul (.int p.size)) (.ok (.combination (.zero (.exact p)))) := by
  have hmultiple {x : Combination} (hx : x.Over p) {s : Scalar} (hs : s.ActsOn p) :
      Makes p (fun v => x.denote p v * s.value) ((combination x).mul s.datum) :=
    (makes_combination hx).mul hs
  have hinteger (n : Int) : (integer n).ActsOn p := fun q hq => nomatch hq
  have hsum : Makes p (fun v => x.denote p v + y.denote p v) ((combination x).add (.combination y)) :=
    (makes_combination hx).add (makes_combination hy)
  obtain ⟨product, hproduct, hproductActs, hproductValue⟩ :=
    (combines_mul p).exists_scalar hs ht
  obtain ⟨total, htotal, htotalActs, htotalValue⟩ := (combines_add p).exists_scalar hs ht
  refine ⟨?defined, fun h => ?left, fun h => mul_combination_of_residue h x, ?mul, ?addScalar, ?add,
    ?one, ?modulus⟩
  case defined =>
    obtain ⟨multiple, hmul, -⟩ := hmultiple hx hs
    exact ⟨multiple, hmul⟩
  case left =>
    rw [mul_combination_of_integer h]
    exact (hmultiple hx hs).equated (hmultiple hx hs) fun _ => rfl
  case mul =>
    rw [hproduct]
    refine ((hmultiple hx hs).mul ht).equated (hmultiple hx hproductActs) fun v => ?_
    rw [hproductValue, mul_assoc]
  case addScalar =>
    rw [htotal]
    refine ((hmultiple hx hs).add (hmultiple hx ht)).equated (hmultiple hx htotalActs) fun v => ?_
    rw [htotalValue, mul_add]
  case add =>
    refine (hsum.mul hs).equated ((hmultiple hx hs).add (hmultiple hy hs)) fun v => ?_
    rw [add_mul]
  case one =>
    refine (hmultiple hx (hinteger 1)).equated (makes_combination hx) fun v => ?_
    rw [Scalar.value, Int.cast_one, mul_one]
  case modulus =>
    refine (hmultiple hx (hinteger p.size)).equated (makes_zero p) fun v => ?_
    rw [Scalar.value, Int.cast_natCast, ZMod.natCast_self, mul_zero]

/-- The residue of three multiplies a sum of variables term by term, and it joins minus two in a
    product. -/
theorem variables_times_threeBySeven :
    let x := var (.exact .seven) 2
    let y := var (.exact .seven) 0
    x.Over .seven ∧ y.Over .seven ∧ threeBySeven.ActsOn .seven ∧ (integer (-2)).ActsOn .seven ∧
      Equated (do (← (combination x).mul threeBySeven.datum).mul (.int (-2)))
        (do (combination x).mul (← threeBySeven.datum.mul (.int (-2)))) ∧
      Equated (do (← (combination x).add (.combination y)).mul threeBySeven.datum)
        (do (← (combination x).mul threeBySeven.datum).add
              (← (combination y).mul threeBySeven.datum)) := by
  intro x y
  have hx : x.Over .seven := over_var .seven 2
  have hy : y.Over .seven := over_var .seven 0
  have hresidue : threeBySeven.ActsOn .seven := fun q hq => (Option.some.inj hq).symm
  have hinteger : (integer (-2)).ActsOn .seven := fun q hq => nomatch hq
  obtain ⟨-, -, -, hmul, -, hadd, -⟩ := scalars_act_from_the_right hx hy hresidue hinteger
  exact ⟨hx, hy, hresidue, hinteger, hmul, hadd⟩

/-- On the left of a variable the residue gives a fault, although the product is defined with the
    residue on the right. -/
theorem threeBySeven_refuses_variable :
    (var (.exact .seven) 0).Over .seven ∧ threeBySeven.ActsOn .seven ∧
      threeBySeven.datum.mul (.combination (var (.exact .seven) 0)) =
        .error (.notAnOperand "LinearCombination") ∧
      ∃ multiple, (combination (var (.exact .seven) 0)).mul threeBySeven.datum =
        .ok (.combination multiple) := by
  have hresidue : threeBySeven.ActsOn .seven := fun q hq => (Option.some.inj hq).symm
  obtain ⟨multiple, hmul, -⟩ := (makes_combination (over_var .seven 0)).mul hresidue
  exact ⟨over_var .seven 0, hresidue, rfl, multiple, hmul⟩

end Combination

end WordCircuit
