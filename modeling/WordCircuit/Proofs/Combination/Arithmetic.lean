import Mathlib.Tactic.Ring
import Mathlib.Tactic.Tauto
import WordCircuit.Combination.Arithmetic
import WordCircuit.Proofs.Combination.Denotation

namespace WordCircuit

namespace Terms

theorem over_putEntry {p : Modulus} {index : Int} {coefficient : Element}
    {entries : List (Int × Element)} (hcoefficient : coefficient.Over p) (hentries : Over p entries) :
    Over p (putEntry index coefficient entries) := by
  induction entries with
  | nil => simpa [putEntry, Over] using hcoefficient
  | cons entry rest ih =>
    obtain ⟨hentry, hrest⟩ := over_cons.mp hentries
    rw [putEntry]
    split
    · exact over_cons.mpr ⟨hcoefficient, hrest⟩
    · exact over_cons.mpr ⟨hentry, ih hrest⟩

/-- Setting the coefficient of an index that has one replaces its share of the
    weighted sum. -/
theorem denote_putEntry_of_some {p : Modulus} (v : Int → ZMod p.size) {index : Int}
    {old : Element} (coefficient : Element) {entries : List (Int × Element)}
    (hfound : entries.lookup index = some old) :
    denote p v (putEntry index coefficient entries) =
      denote p v entries + (coefficient.residue p - old.residue p) * v index := by
  induction entries with
  | nil => simp at hfound
  | cons entry rest ih =>
    obtain ⟨key, found⟩ := entry
    by_cases hkey : key = index
    · subst hkey
      obtain rfl : found = old := by simpa using hfound
      simp only [putEntry, if_true, denote_cons]
      ring
    · have hother : (index == key) = false := by simpa using Ne.symm hkey
      have hrest : rest.lookup index = some old := by simpa [List.lookup_cons, hother] using hfound
      simp only [putEntry, if_neg hkey, denote_cons, ih hrest]
      ring

theorem denote_putEntry_of_none {p : Modulus} (v : Int → ZMod p.size) {index : Int}
    (coefficient : Element) {entries : List (Int × Element)} (hfound : entries.lookup index = none) :
    denote p v (putEntry index coefficient entries) =
      denote p v entries + coefficient.residue p * v index := by
  induction entries with
  | nil => simp [putEntry]
  | cons entry rest ih =>
    obtain ⟨key, found⟩ := entry
    by_cases hkey : key = index
    · subst hkey
      simp at hfound
    · have hother : (index == key) = false := by simpa using Ne.symm hkey
      have hrest : rest.lookup index = none := by simpa [List.lookup_cons, hother] using hfound
      simp only [putEntry, if_neg hkey, denote_cons, ih hrest]
      ring

theorem over_of_lookup {p : Modulus} {index : Int} {found : Element}
    {entries : List (Int × Element)} (hentries : Over p entries)
    (hfound : entries.lookup index = some found) : found.Over p := by
  obtain ⟨before, after, hsplit, -⟩ := List.lookup_eq_some_iff.mp hfound
  exact hentries (index, found) (by simp [hsplit])

/-- One step of a merge, which puts a single entry. -/
def mergeStep (both : Element → Element → Except Fault Element) (alone : Element → Element)
    (merged : Terms) (entry : Int × Element) : Except Fault Terms :=
  match merged.find? entry.1 with
  | some coefficient => (both coefficient entry.2).map (merged.insert entry.1)
  | none => .ok (merged.insert entry.1 (alone entry.2))

theorem mergeM_eq_foldlM (both : Element → Element → Except Fault Element)
    (alone : Element → Element) (terms other : Terms) :
    mergeM both alone terms other = other.entries.foldlM (mergeStep both alone) terms :=
  rfl

section Merge

variable {p : Modulus} {both : Element → Element → Except Fault Element}
  {alone : Element → Element} {sign : ZMod p.size}

theorem exists_mergeStep
    (hboth : ∀ a b, both (.ofClass p a) (.ofClass p b) = .ok (.ofClass p (a + sign * b)))
    (halone : ∀ b, alone (.ofClass p b) = .ofClass p (sign * b))
    {merged : Terms} (hmerged : Over p merged.entries) {entry : Int × Element}
    (hentry : entry.2.Over p) :
    ∃ coefficient : Element, coefficient.Over p ∧
      mergeStep both alone merged entry = .ok (merged.insert entry.1 coefficient) ∧
      ∀ v, denote p v (putEntry entry.1 coefficient merged.entries) =
        denote p v merged.entries + sign * (entry.2.residue p * v entry.1) := by
  have hclass := hentry.eq_ofClass
  rw [mergeStep]
  cases hfound : merged.find? entry.1 with
  | none =>
    refine ⟨.ofClass p (sign * entry.2.residue p), Element.over_ofClass _ _, ?_, ?_⟩
    · rw [hclass, halone, Element.residue_ofClass]
    · intro v
      rw [denote_putEntry_of_none v _ hfound, Element.residue_ofClass]
      ring
  | some found =>
    have hover := over_of_lookup hmerged hfound
    refine ⟨.ofClass p (found.residue p + sign * entry.2.residue p),
      Element.over_ofClass _ _, ?_, ?_⟩
    · simp only
      rw [hover.eq_ofClass, hclass, hboth, Element.residue_ofClass, Element.residue_ofClass]
      rfl
    · intro v
      rw [denote_putEntry_of_some v _ hfound, Element.residue_ofClass]
      ring

variable (both alone sign) in
/-- A merge that adds `sign` times the coefficients of the second collection to
    those of the first adds `sign` times its weighted sum. It mentions no index
    that neither of them has. -/
theorem exists_mergeM
    (hboth : ∀ a b, both (.ofClass p a) (.ofClass p b) = .ok (.ofClass p (a + sign * b)))
    (halone : ∀ b, alone (.ofClass p b) = .ofClass p (sign * b))
    {terms other : Terms} (hterms : Over p terms.entries) (hother : Over p other.entries) :
    ∃ merged, mergeM both alone terms other = .ok merged ∧ Over p merged.entries ∧
      (∀ v, denote p v merged.entries =
        denote p v terms.entries + sign * denote p v other.entries) ∧
      ∀ i ∈ merged.entries.map Prod.fst,
        i ∈ terms.entries.map Prod.fst ∨ i ∈ other.entries.map Prod.fst := by
  rw [mergeM_eq_foldlM]
  generalize other.entries = entries at hother ⊢
  induction entries generalizing terms with
  | nil => exact ⟨terms, rfl, hterms, by simp, by simp⟩
  | cons entry rest ih =>
    obtain ⟨hentry, hrest⟩ := over_cons.mp hother
    obtain ⟨coefficient, hcoefficient, hstep, hdenote⟩ :=
      exists_mergeStep hboth halone hterms hentry
    have hinsert : Over p (terms.insert entry.1 coefficient).entries :=
      over_putEntry hcoefficient hterms
    obtain ⟨merged, hmerged, hover, hsum, hkeys⟩ := ih hinsert hrest
    refine ⟨merged, ?_, hover, ?_, ?_⟩
    · rw [List.foldlM_cons, hstep]
      exact hmerged
    · intro v
      rw [hsum v, insert, hdenote v, denote_cons]
      ring
    · intro i hi
      have hcases := hkeys i hi
      rw [insert, mem_keys_putEntry] at hcases
      rw [List.map_cons, List.mem_cons]
      tauto

end Merge

/-- Applying `f` to the coefficients succeeds on residues on which `f` does, and
    keeps the indices. -/
theorem exists_mapEntries {p : Modulus} {f : Element → Except Fault Element} (factor : ZMod p.size)
    (hf : ∀ a, f (.ofClass p a) = .ok (.ofClass p (a * factor))) {entries : List (Int × Element)}
    (hentries : Over p entries) :
    ∃ mapped, mapEntries f entries = .ok mapped ∧ Over p mapped.1 ∧
      ∀ v, denote p v mapped.1 = denote p v entries * factor := by
  induction entries with
  | nil => exact ⟨⟨[], rfl⟩, rfl, hentries, by simp⟩
  | cons entry rest ih =>
    obtain ⟨hentry, hrest⟩ := over_cons.mp hentries
    obtain ⟨index, coefficient⟩ := entry
    obtain ⟨⟨mapped, hkeys⟩, hmapped, hover, hsum⟩ := ih hrest
    obtain ⟨z, rfl⟩ := hentry
    refine ⟨⟨(index, .ofClass p (z * factor)) :: mapped, by simp [hkeys]⟩, ?_, ?_, ?_⟩
    · rw [mapEntries, hf, hmapped]
      rfl
    · exact over_cons.mpr ⟨Element.over_ofClass _ _, hover⟩
    · intro v
      simp only [denote_cons, Element.residue_ofClass, hsum v]
      ring

theorem exists_mapM {p : Modulus} {f : Element → Except Fault Element} (factor : ZMod p.size)
    (hf : ∀ a, f (.ofClass p a) = .ok (.ofClass p (a * factor))) {terms : Terms}
    (hterms : Over p terms.entries) :
    ∃ mapped, terms.mapM f = .ok mapped ∧ Over p mapped.entries ∧
      (∀ v, denote p v mapped.entries = denote p v terms.entries * factor) ∧
      mapped.entries.map Prod.fst = terms.entries.map Prod.fst := by
  obtain ⟨⟨mapped, hkeys⟩, hmapped, hover, hsum⟩ := exists_mapEntries factor hf hterms
  refine ⟨⟨mapped, hkeys ▸ terms.nodup⟩, ?_, hover, hsum, hkeys⟩
  rw [mapM, hmapped]
  rfl

/-- Negating the coefficients negates the weighted sum. -/
theorem over_denote_map_neg {p : Modulus} {terms : Terms} (hterms : Over p terms.entries) :
    Over p (terms.map Element.neg).entries ∧
      ∀ v, denote p v (terms.map Element.neg).entries = -denote p v terms.entries := by
  unfold map
  simp only
  generalize terms.entries = entries at hterms ⊢
  induction entries with
  | nil => exact ⟨hterms, by simp⟩
  | cons entry rest ih =>
    obtain ⟨hentry, hrest⟩ := over_cons.mp hterms
    obtain ⟨hover, hsum⟩ := ih hrest
    have hneg : entry.2.neg = .ofClass p (-entry.2.residue p) := by
      rw [hentry.eq_ofClass, Element.neg_ofClass, Element.residue_ofClass]
    rw [List.map_cons, hneg]
    refine ⟨over_cons.mpr ⟨Element.over_ofClass _ _, hover⟩, fun v => ?_⟩
    rw [denote_cons, denote_cons, hsum v, Element.residue_ofClass]
    ring

@[simp] theorem denote_zero (p : Modulus) (entries : List (Int × Element)) :
    denote p 0 entries = 0 := by
  induction entries with
  | nil => rfl
  | cons entry rest ih => simp [ih]

/-- Where all variables but one are zero, only the coefficient of this one counts. -/
theorem denote_single {p : Modulus} {entries : List (Int × Element)}
    (hnodup : (entries.map Prod.fst).Nodup) {entry : Int × Element} (hmem : entry ∈ entries) :
    denote p (Pi.single entry.1 1) entries = entry.2.residue p := by
  have hother {entries : List (Int × Element)} {i : Int} (hi : i ∉ entries.map Prod.fst) :
      denote p (Pi.single i 1) entries = 0 := by
    rw [← denote_zero p entries]
    apply denote_congr
    intro j hj
    apply Pi.single_eq_of_ne
    rintro rfl
    exact hi hj
  induction entries with
  | nil => cases hmem
  | cons first rest ih =>
    rw [List.map_cons, List.nodup_cons] at hnodup
    rw [denote_cons]
    obtain rfl | hmem := List.mem_cons.mp hmem
    · rw [hother hnodup.1, Pi.single_eq_same, mul_one, add_zero]
    · have hne : first.1 ≠ entry.1 := by
        intro heq
        exact hnodup.1 (heq ▸ List.mem_map_of_mem hmem)
      rw [ih hnodup.2 hmem, Pi.single_eq_of_ne hne, mul_zero, zero_add]

theorem over_dropZeros {p : Modulus} {terms : Terms} (hterms : Over p terms.entries) :
    Over p terms.dropZeros.entries :=
  fun entry hmem => hterms entry (List.mem_filter.mp hmem).1

/-- Terms that are zero do not count for the weighted sum. -/
theorem denote_dropZeros {p : Modulus} (v : Int → ZMod p.size) {terms : Terms}
    (hterms : Over p terms.entries) :
    denote p v terms.dropZeros.entries = denote p v terms.entries := by
  change denote p v (terms.entries.filter fun entry => !entry.2.isZero) = _
  generalize terms.entries = entries at hterms ⊢
  induction entries with
  | nil => rfl
  | cons entry rest ih =>
    obtain ⟨hentry, hrest⟩ := over_cons.mp hterms
    by_cases hzero : entry.2.isZero
    · have hresidue : entry.2.residue p = 0 := by
        rw [hentry.eq_ofClass] at hzero
        exact (Element.isZero_ofClass p _).mp hzero
      rw [List.filter_cons_of_neg (by simp [hzero]), ih hrest, denote_cons, hresidue]
      ring
    · rw [List.filter_cons_of_pos (by simp [hzero]), denote_cons, denote_cons, ih hrest]

end Terms

namespace Combination

/-- The indices of the variables with a coefficient. -/
def vars (x : Combination) : List Int :=
  x.terms.entries.map Prod.fst

theorem over_make {p : Modulus} {constant : Element} {terms : Terms} (hconstant : constant.Over p)
    (hterms : Terms.Over p terms.entries) : (make (.exact p) constant terms).Over p :=
  ⟨rfl, hconstant, Terms.over_dropZeros hterms⟩

theorem denote_make {p : Modulus} (v : Int → ZMod p.size) {constant : Element} {terms : Terms}
    (hterms : Terms.Over p terms.entries) :
    (make (.exact p) constant terms).denote p v =
      constant.residue p + Terms.denote p v terms.entries := by
  rw [denote, ← Terms.denote_dropZeros v hterms]
  rfl

theorem mem_vars_of_make {order : Order} {constant : Element} {terms : Terms} {i : Int}
    (hi : i ∈ (make order constant terms).vars) : i ∈ terms.entries.map Prod.fst := by
  obtain ⟨entry, hmem, rfl⟩ := List.mem_map.mp hi
  exact List.mem_map_of_mem (List.mem_filter.mp hmem).1

theorem denote_congr {p : Modulus} {x : Combination} {v v' : Int → ZMod p.size}
    (hagree : ∀ i ∈ x.vars, v i = v' i) : x.denote p v = x.denote p v' := by
  rw [denote, denote, Terms.denote_congr hagree]

/-- No combination has coefficients that are zero, so those over a field have none whose class
    is zero. -/
theorem Over.residue_ne_zero {p : Modulus} {x : Combination} (hx : x.Over p) :
    ∀ entry ∈ x.terms.entries, entry.2.residue p ≠ 0 := by
  intro entry hmem hzero
  have hnonzero := x.nonzero entry hmem
  rw [(hx.terms entry hmem).eq_ofClass, hzero] at hnonzero
  rw [(Element.isZero_ofClass p 0).mpr rfl] at hnonzero
  cases hnonzero

/-- The variables of a combination are those on whose value its own value depends. -/
theorem mem_vars_iff {p : Modulus} {x : Combination} (hx : x.Over p) (i : Int) :
    i ∈ x.vars ↔ ∃ v v' : Int → ZMod p.size, (∀ j ≠ i, v j = v' j) ∧ x.denote p v ≠ x.denote p v' := by
  constructor
  · intro hi
    obtain ⟨entry, hmem, rfl⟩ := List.mem_map.mp hi
    refine ⟨Pi.single entry.1 1, 0, fun j hj => Pi.single_eq_of_ne hj 1, ?_⟩
    rw [denote, denote, Terms.denote_single x.terms.nodup hmem, Terms.denote_zero, add_zero]
    simpa using hx.residue_ne_zero entry hmem
  · rintro ⟨v, v', hagree, hne⟩
    by_contra hi
    apply hne
    apply denote_congr
    intro j hj
    apply hagree
    rintro rfl
    exact hi hj

theorem checkOrder_of_over {p : Modulus} {x y : Combination} (hx : x.Over p) (hy : y.Over p) :
    x.checkOrder y = .ok () := by
  simp [checkOrder, hx.order, hy.order, Order.same]

/-- `z` stands for the function `f` of what `x` and `y` stand for, and mentions no
    variable beyond theirs. -/
structure Combines (p : Modulus) (f : ZMod p.size → ZMod p.size → ZMod p.size)
    (x y z : Combination) : Prop where
  over_field : z.Over p
  denote_eq : ∀ v, z.denote p v = f (x.denote p v) (y.denote p v)
  vars : ∀ i ∈ z.vars, i ∈ x.vars ∨ i ∈ y.vars

/-- If both parts have values, then so has the combined one, namely `f` of them. -/
theorem Combines.evaluate_eq {p : Modulus} {f : ZMod p.size → ZMod p.size → ZMod p.size}
    {x y z : Combination} (h : Combines p f x y z) {assignment : Assignment}
    (hover : assignment.Over p) (hx : x.Over p) (hy : y.Over p) {a b : ZMod p.size}
    (ha : x.evaluate assignment = .ok (.ofClass p a))
    (hb : y.evaluate assignment = .ok (.ofClass p b)) :
    z.evaluate assignment = .ok (.ofClass p (f a b)) := by
  obtain ⟨hcoveredX, ha⟩ := (evaluate_eq_ofClass_iff hover hx a).mp ha
  obtain ⟨hcoveredY, hb⟩ := (evaluate_eq_ofClass_iff hover hy b).mp hb
  refine (evaluate_eq_ofClass_iff hover h.over_field _).mpr ⟨fun entry hmem => ?_, ?_⟩
  · rcases h.vars entry.1 (List.mem_map_of_mem hmem) with hi | hi
    · obtain ⟨other, hother, heq⟩ := List.mem_map.mp hi
      exact heq ▸ hcoveredX other hother
    · obtain ⟨other, hother, heq⟩ := List.mem_map.mp hi
      exact heq ▸ hcoveredY other hother
  · rw [h.denote_eq, ha, hb]

/-- The sum of two combinations over one field stands for the sum of the two
    affine functions. -/
theorem exists_add {p : Modulus} {x y : Combination} (hx : x.Over p) (hy : y.Over p) :
    ∃ z, x.add y = .ok z ∧ Combines p (fun a b => a + b) x y z := by
  obtain ⟨merged, hmerged, hover, hsum, hkeys⟩ := Terms.exists_mergeM (p := p)
    (fun k l => k.add (.element l)) id 1 (by simp [Element.add_ofClass]) (by simp) hx.terms hy.terms
  have hconstant : x.constant.add (.element y.constant) =
      .ok (.ofClass p (x.constant.residue p + y.constant.residue p)) := by
    rw [hx.constant.eq_ofClass, hy.constant.eq_ofClass, Element.add_ofClass]
    simp
  refine ⟨make (.exact p) (.ofClass p (x.constant.residue p + y.constant.residue p)) merged, ?_,
    over_make (Element.over_ofClass _ _) hover, ?_, fun i hi => hkeys i (mem_vars_of_make hi)⟩
  · rw [add, checkOrder_of_over hx hy, hmerged, hconstant, hx.order]
    rfl
  · intro v
    rw [denote_make v hover, hsum v, denote, denote, Element.residue_ofClass]
    ring

theorem exists_sub {p : Modulus} {x y : Combination} (hx : x.Over p) (hy : y.Over p) :
    ∃ z, x.sub y = .ok z ∧ Combines p (fun a b => a - b) x y z := by
  obtain ⟨merged, hmerged, hover, hsum, hkeys⟩ := Terms.exists_mergeM (p := p)
    (fun k l => k.sub (.element l)) Element.neg (-1)
    (by intro a b; rw [Element.sub_ofClass]; congr 2; ring)
    (by intro b; rw [Element.neg_ofClass]; congr 1; ring) hx.terms hy.terms
  have hconstant : x.constant.sub (.element y.constant) =
      .ok (.ofClass p (x.constant.residue p - y.constant.residue p)) := by
    rw [hx.constant.eq_ofClass, hy.constant.eq_ofClass, Element.sub_ofClass]
    simp
  refine ⟨make (.exact p) (.ofClass p (x.constant.residue p - y.constant.residue p)) merged, ?_,
    over_make (Element.over_ofClass _ _) hover, ?_, fun i hi => hkeys i (mem_vars_of_make hi)⟩
  · rw [sub, checkOrder_of_over hx hy, hmerged, hconstant, hx.order]
    rfl
  · intro v
    rw [denote_make v hover, hsum v, denote, denote, Element.residue_ofClass]
    ring

/-- The multiple by an integer or by an element of the field stands for the multiple of the
    affine function. -/
theorem exists_scale {p : Modulus} {x : Combination} (hx : x.Over p) {scalar : Operand}
    {factor : ZMod p.size} (hscalar : scalar.StandsFor p factor) :
    ∃ z, x.scale scalar = .ok z ∧ Combines p (fun a _ => a * factor) x x z := by
  obtain ⟨mapped, hmapped, hover, hsum, hkeys⟩ := Terms.exists_mapM (p := p)
    (f := fun coefficient => coefficient.mul scalar) factor hscalar.mul_ofClass hx.terms
  have hconstant : x.constant.mul scalar = .ok (.ofClass p (x.constant.residue p * factor)) := by
    rw [hx.constant.eq_ofClass, hscalar.mul_ofClass]
    simp
  refine ⟨make (.exact p) (.ofClass p (x.constant.residue p * factor)) mapped, ?_,
    over_make (Element.over_ofClass _ _) hover, ?_, ?_⟩
  · unfold scale
    rw [hmapped, hconstant, hx.order]
    cases hscalar with
    | int n => rfl
    | element => simp [Order.same, bind, Except.bind, pure, Except.pure]
  · intro v
    rw [denote_make v hover, hsum v, denote, Element.residue_ofClass]
    ring
  · intro i hi
    rw [vars, ← hkeys]
    exact .inl (mem_vars_of_make hi)

theorem exists_scale_int {p : Modulus} {x : Combination} (hx : x.Over p) (n : Int) :
    ∃ z, x.scale (.int n) = .ok z ∧ Combines p (fun a _ => a * n) x x z :=
  exists_scale hx (.int n)

/-- The negative stands for the negative of the affine function. -/
theorem combines_neg {p : Modulus} {x : Combination} (hx : x.Over p) :
    Combines p (fun a _ => -a) x x x.neg := by
  obtain ⟨hover, hsum⟩ := Terms.over_denote_map_neg hx.terms
  have hconstant : x.constant.neg = .ofClass p (-x.constant.residue p) := by
    rw [hx.constant.eq_ofClass, Element.neg_ofClass, Element.residue_ofClass]
  rw [neg, hx.order, hconstant]
  constructor
  · exact over_make (Element.over_ofClass _ _) hover
  · intro v
    rw [denote_make v hover, hsum v, denote, Element.residue_ofClass]
    ring
  · intro i hi
    have hkey := mem_vars_of_make hi
    rw [Terms.map, List.map_map] at hkey
    exact .inl hkey

theorem over_ofElement {p : Modulus} {e : Element} (he : e.Over p) : (ofElement e).Over p := by
  obtain ⟨z, rfl⟩ := he
  exact ⟨rfl, Element.over_ofClass p z, by simp [ofElement, make, Terms.dropZeros, Terms.empty, Terms.Over]⟩

@[simp] theorem vars_ofElement (e : Element) : (ofElement e).vars = [] :=
  rfl

@[simp] theorem denote_ofElement {p : Modulus} (v : Int → ZMod p.size) (e : Element) :
    (ofElement e).denote p v = e.residue p :=
  add_zero _

theorem evaluate_ofElement (e : Element) (assignment : Assignment) :
    (ofElement e).evaluate assignment = .ok e :=
  rfl

theorem over_var (p : Modulus) (index : Int) : (var (.exact p) index).Over p := by
  refine over_make (Element.zero_exact p ▸ Element.over_ofClass p 0) ?_
  simpa [Terms.single, Terms.Over] using Element.over_ofClass p 1

theorem denote_var {p : Modulus} (v : Int → ZMod p.size) (index : Int) :
    (var (.exact p) index).denote p v = v index := by
  have hterms : Terms.Over p (Terms.single index (Element.one (.exact p))).entries := by
    simpa [Terms.single, Terms.Over] using Element.over_ofClass p 1
  rw [var, denote_make v hterms]
  simp [Terms.single]

/-- A variable alone keeps its term, because one is not zero. -/
theorem vars_var (p : Modulus) (index : Int) : (var (.exact p) index).vars = [index] := by
  have hone : (Element.ofClass p 1).isZero = false := by
    rw [Bool.eq_false_iff, Ne, Element.isZero_ofClass]
    exact one_ne_zero
  simp [vars, var, make, Terms.dropZeros, Terms.single, hone]

end Combination

end WordCircuit
