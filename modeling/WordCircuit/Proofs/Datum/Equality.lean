import WordCircuit.Proofs.Datum.Distinct

namespace WordCircuit

namespace Scalar

/-- Different integers, or residues to different moduli. Nothing makes them equal, although they
    may be equal to a third number. -/
def Apart (x y : Scalar) : Prop :=
  match x.modulus?, y.modulus? with
  | none, none => x.value ≠ y.value
  | some p, some q => p ≠ q
  | _, _ => False

/-- Equality passes through a third number, unless the first and the last one are apart: an integer
    has a residue to each modulus, and a residue belongs to many integers. -/
theorem Alike.trans_iff {x y z : Scalar} (hxy : x.Alike y) (hyz : y.Alike z) :
    x.Alike z ↔ ¬x.Apart z := by
  unfold Alike Apart at *
  cases hx : x.modulus? <;> cases hy : y.modulus? <;> cases hz : z.modulus? <;>
    simp only [hx, hy, hz] at * <;> grind

/-- Beside the residue `x` an integer `y` is in canonical form. -/
def Fits (x y : Scalar) : Prop :=
  ∀ p, x.modulus? = some p → y.modulus? = none → 0 ≤ y.value ∧ y.value < p.size

/-- Numbers that are alike are the same integer in canonical form, as long as the integers among
    them are. -/
theorem Alike.value_eq {x y : Scalar} (h : x.Alike y) (hxy : x.Fits y) (hyx : y.Fits x) :
    x.value = y.value := by
  unfold Alike at h
  cases hx : x.modulus? with
  | none =>
    cases hy : y.modulus? with
    | none => simpa only [hx, hy] using h
    | some q =>
      obtain ⟨hnonneg, hlt⟩ := hyx q hy hx
      simp only [hx, hy] at h
      rwa [Int.emod_eq_of_lt hnonneg hlt] at h
  | some p =>
    cases hy : y.modulus? with
    | none =>
      obtain ⟨hnonneg, hlt⟩ := hxy p hx hy
      simp only [hx, hy] at h
      rw [Int.emod_eq_of_lt hnonneg hlt] at h
      exact h.symm
    | some q =>
      simp only [hx, hy] at h
      exact h.2

/-- Equal numbers are filed alike if their codes are equal. Where they are of one kind the codes
    need not be looked at, because then the numbers have the same value. -/
theorem filedAlike_iff {x y : Scalar} (h : x.Alike y) :
    Datum.filedAlike x.datum y.datum = true ↔ x.code = y.code := by
  have hvalue (hsame : x.value = y.value) : x.code = y.code := by
    rw [code_eq, code_eq, hsame]
  cases x with
  | residue r =>
    cases y with
    | residue s => exact ⟨fun _ => hvalue h.2, fun _ => rfl⟩
    | truth b => exact beq_iff_eq.trans eq_comm
    | integer n => exact beq_iff_eq.trans eq_comm
  | truth a =>
    cases y with
    | residue s => exact beq_iff_eq
    | truth b => exact ⟨fun _ => hvalue h, fun _ => rfl⟩
    | integer n => exact ⟨fun _ => hvalue h, fun _ => rfl⟩
  | integer m =>
    cases y with
    | residue s => exact beq_iff_eq
    | truth b => exact ⟨fun _ => hvalue h, fun _ => rfl⟩
    | integer n => exact ⟨fun _ => hvalue h, fun _ => rfl⟩

/-- A set has no room for a number beside one that equals it and has the same code. -/
theorem coincide_iff (x y : Scalar) :
    Datum.coincide x.datum y.datum = true ↔ x.Alike y ∧ x.code = y.code := by
  have hoccurrence : Datum.sameOccurrence x.datum y.datum = false := by
    cases x <;> cases y <;> rfl
  rw [Datum.coincide, hoccurrence, Bool.false_or, Bool.and_eq_true, same_iff_alike, and_comm]
  exact and_congr_right filedAlike_iff

/-- Each integer in the list is in canonical form wherever it equals a residue of the list, and it
    equals residues to one modulus only. -/
structure Unambiguous (values : List Scalar) : Prop where
  fits : ∀ x ∈ values, ∀ y ∈ values, x.datum.same y.datum = true → x.Fits y
  modulus_eq : ∀ x ∈ values, ∀ n ∈ values, ∀ y ∈ values, n.modulus? = none →
    x.datum.same n.datum = true → n.datum.same y.datum = true →
      ∀ p q, x.modulus? = some p → y.modulus? = some q → p = q

namespace Unambiguous

variable {values : List Scalar} (h : Unambiguous values) {x y z : Scalar}

include h

theorem value_eq (hx : x ∈ values) (hy : y ∈ values) (hxy : x.Alike y) : x.value = y.value :=
  hxy.value_eq (h.fits x hx y hy ((same_iff_alike x y).mpr hxy))
    (h.fits y hy x hx ((same_iff_alike y x).mpr hxy.symm))

/-- In such a list nothing that is apart equals a third number. -/
theorem not_apart (hx : x ∈ values) (hy : y ∈ values) (hz : z ∈ values) (hxy : x.Alike y)
    (hyz : y.Alike z) : ¬x.Apart z := by
  intro hapart
  have hvalue := (h.value_eq hx hy hxy).trans (h.value_eq hy hz hyz)
  unfold Apart at hapart
  cases hp : x.modulus? with
  | none =>
    cases hq : z.modulus? with
    | none =>
      simp only [hp, hq] at hapart
      exact hapart hvalue
    | some q => simp only [hp, hq] at hapart
  | some p =>
    cases hq : z.modulus? with
    | none => simp only [hp, hq] at hapart
    | some q =>
      simp only [hp, hq] at hapart
      apply hapart
      cases hr : y.modulus? with
      | none =>
        rw [← same_iff_alike] at hxy hyz
        exact h.modulus_eq x hx y hy z hz hr hxy hyz p q hp hq
      | some r =>
        simp only [Alike, hp, hq, hr] at hxy hyz
        exact hxy.1.trans hyz.1

theorem coincide_iff_alike (hx : x ∈ values) (hy : y ∈ values) :
    Datum.coincide x.datum y.datum = true ↔ x.Alike y := by
  rw [coincide_iff]
  refine and_iff_left_of_imp fun hxy => ?_
  rw [code_eq, code_eq, h.value_eq hx hy hxy]

theorem coherent : Datum.Coherent (values.map datum) := by
  constructor
  · rw [List.forall_mem_map]
    intro x hx
    exact (h.coincide_iff_alike hx hx).mpr (alike_refl x)
  · simp only [List.forall_mem_map]
    intro x hx y hy hxy
    exact (h.coincide_iff_alike hy hx).mpr ((h.coincide_iff_alike hx hy).mp hxy).symm
  · simp only [List.forall_mem_map]
    intro x hx y hy z hz hxy hyz
    have hxy := (h.coincide_iff_alike hx hy).mp hxy
    have hyz := (h.coincide_iff_alike hy hz).mp hyz
    exact (h.coincide_iff_alike hx hz).mpr ((hxy.trans_iff hyz).mpr (h.not_apart hx hy hz hxy hyz))

theorem pairwise_distinct :
    (Datum.distinct (values.map datum)).Pairwise fun a b => a.same b = false := by
  refine (Datum.pairwise_distinct _).imp_of_mem fun ha hb hapart => ?_
  obtain ⟨x, hx, rfl⟩ := List.mem_map.mp (Datum.distinct_subset _ ha)
  obtain ⟨y, hy, rfl⟩ := List.mem_map.mp (Datum.distinct_subset _ hb)
  rw [Bool.eq_false_iff, Ne, same_iff_alike, ← h.coincide_iff_alike hx hy, hapart]
  exact Bool.false_ne_true

end Unambiguous

/-- Equality of exact numbers is reflexive and symmetric, and it passes through a third number
    unless the first and the last one are apart. Equal numbers have equal codes if the integers
    among them are in canonical form. A set of numbers among which equality is unambiguous has no
    two members that are equal, and its size does not depend on the order of the list. -/
theorem equality_coherent_where_unambiguous :
    (∀ x : Scalar, x.datum.same x.datum = true) ∧
    (∀ x y : Scalar, x.datum.same y.datum = y.datum.same x.datum) ∧
    (∀ x y z : Scalar, x.datum.same y.datum = true → y.datum.same z.datum = true →
      (x.datum.same z.datum = true ↔ ¬x.Apart z)) ∧
    (∀ x y : Scalar, x.datum.same y.datum = true → x.Fits y → y.Fits x → x.code = y.code) ∧
    ∀ values others : List Scalar, Unambiguous values → values.Perm others →
      (Datum.distinct (values.map datum)).Pairwise (fun a b => a.same b = false) ∧
      (Datum.distinct (values.map datum)).length = (Datum.distinct (others.map datum)).length := by
  refine ⟨?_, ?_, ?_, ?_, ?_⟩
  · intro x
    exact (same_iff_alike x x).mpr (alike_refl x)
  · intro x y
    rw [Bool.eq_iff_iff, same_iff_alike, same_iff_alike]
    exact ⟨Alike.symm, Alike.symm⟩
  · intro x y z hxy hyz
    rw [same_iff_alike] at *
    exact hxy.trans_iff hyz
  · intro x y hxy hfits hfits'
    rw [code_eq, code_eq, ((same_iff_alike x y).mp hxy).value_eq hfits hfits']
  · intro values others hvalues hperm
    exact ⟨hvalues.pairwise_distinct, hvalues.coherent.length_distinct_eq (hperm.map datum)⟩

/-- Canonical integers beside a residue are unambiguous, in whatever order a set meets them. -/
theorem canonical_integers_unambiguous :
    Unambiguous [threeBySeven, integer 3, integer 4] ∧
      (Datum.distinct ([threeBySeven, integer 3, integer 4].map datum)).length =
        (Datum.distinct ([integer 4, integer 3, threeBySeven].map datum)).length := by
  have hmodulus : ∀ x ∈ [threeBySeven, integer 3, integer 4], ∀ p, x.modulus? = some p → p = .seven := by
    simp [threeBySeven, modulus?, eq_comm]
  have hbounds : ∀ y ∈ [threeBySeven, integer 3, integer 4], 0 ≤ y.value ∧ y.value < 7 := by decide
  have hvalues : Unambiguous [threeBySeven, integer 3, integer 4] := by
    constructor
    · intro x hx y hy _ p hp _
      obtain rfl := hmodulus x hx p hp
      exact hbounds y hy
    · intro x hx n _ y hy _ _ _ p q hp hq
      exact (hmodulus x hx p hp).trans (hmodulus y hy q hq).symm
  have hperm : [threeBySeven, integer 3, integer 4].Perm [integer 4, integer 3, threeBySeven] :=
    (List.reverse_perm _).symm
  obtain ⟨-, -, -, -, hdistinct⟩ := equality_coherent_where_unambiguous
  exact ⟨hvalues, (hdistinct _ _ hvalues hperm).2⟩

/-- The residue of three to the modulus eleven. -/
def threeByEleven : Scalar :=
  residue ⟨⟨11, by decide⟩, 3, by decide⟩

/-- Three equals both residues, which differ, so that the order decides how many of the three numbers
    a set keeps. Ten equals the residue to the modulus seven without having its code, so that a set
    keeps both. -/
theorem equality_links_apart_residues :
    (threeBySeven.datum.same (integer 3).datum = true ∧
      (integer 3).datum.same threeByEleven.datum = true ∧
      threeBySeven.datum.same threeByEleven.datum = false) ∧
    ((Datum.distinct ([threeBySeven, integer 3, threeByEleven].map datum)).length = 2 ∧
      (Datum.distinct ([integer 3, threeBySeven, threeByEleven].map datum)).length = 1) ∧
    (threeBySeven.datum.same (integer 10).datum = true ∧ threeBySeven.code ≠ (integer 10).code ∧
      (Datum.distinct ([threeBySeven, integer 10].map datum)).length = 2) := by
  decide

end Scalar

end WordCircuit
