import WordCircuit.Proofs.Combination.Arithmetic

namespace WordCircuit

/-- The coefficients of different variables, in the sequence in which they are given. -/
def Terms.ofClasses (p : Modulus) (terms : List (Nat × ZMod p.size))
    (hnodup : (terms.map Prod.fst).Nodup) : Terms where
  entries := terms.map fun term => ((term.1 : Int), .ofClass p term.2)
  nodup := by
    have hkeys := hnodup.map Nat.cast_injective (β := Int)
    rwa [List.map_map] at hkeys ⊢

/-- How a combination over the residues modulo `p` comes about: it is written down with a
    constant and coefficients, which may be zero, or it is computed from others. -/
inductive Formula (p : Modulus) where
  | affine (constant : ZMod p.size) (terms : List (Nat × ZMod p.size))
      (hnodup : (terms.map Prod.fst).Nodup)
  | add (a b : Formula p)
  | sub (a b : Formula p)
  | neg (a : Formula p)
  | scale (a : Formula p) (scalar : Operand) (factor : ZMod p.size)
      (hscalar : scalar.StandsFor p factor)

namespace Formula

variable {p : Modulus}

def build : Formula p → Except Fault Combination
  | affine constant terms hnodup =>
    .ok (.make (.exact p) (.ofClass p constant) (.ofClasses p terms hnodup))
  | add a b => do
    let x ← a.build
    let y ← b.build
    x.add y
  | sub a b => do
    let x ← a.build
    let y ← b.build
    x.sub y
  | neg a => do
    let x ← a.build
    return x.neg
  | scale a scalar _ _ => do
    let x ← a.build
    x.scale scalar

/-- The affine function of the variables that a formula says. -/
def value (v : Int → ZMod p.size) : Formula p → ZMod p.size
  | affine constant terms _ => constant + (terms.map fun term => term.2 * v term.1).sum
  | add a b => a.value v + b.value v
  | sub a b => a.value v - b.value v
  | neg a => -a.value v
  | scale a _ factor _ => a.value v * factor

/-- The formula makes the combination without a fault. The combination is over the field, its
    variables have no negative indices, and it stands for the function that the formula says. -/
structure Builds (f : Formula p) (x : Combination) : Prop where
  build_eq : f.build = .ok x
  over_field : x.Over p
  nonneg : ∀ i ∈ x.vars, 0 ≤ i
  denote_eq : ∀ v, x.denote p v = f.value v

theorem builds_affine (constant : ZMod p.size) (terms : List (Nat × ZMod p.size))
    (hnodup : (terms.map Prod.fst).Nodup) :
    (affine constant terms hnodup).Builds
      (.make (.exact p) (.ofClass p constant) (.ofClasses p terms hnodup)) := by
  have hover : Terms.Over p (Terms.ofClasses p terms hnodup).entries := by
    intro entry hmem
    obtain ⟨term, -, rfl⟩ := List.mem_map.mp hmem
    exact Element.over_ofClass p term.2
  constructor
  · rfl
  · exact Combination.over_make (Element.over_ofClass p constant) hover
  · intro i hi
    obtain ⟨entry, hmem, rfl⟩ := List.mem_map.mp (Combination.mem_vars_of_make hi)
    obtain ⟨term, -, rfl⟩ := List.mem_map.mp hmem
    exact Int.natCast_nonneg term.1
  · intro v
    rw [Combination.denote_make v hover, Element.residue_ofClass, value, Terms.denote,
      Terms.ofClasses, List.map_map]
    simp [Function.comp_def]

/-- What is computed from combinations that formulas make is made by a formula again. -/
theorem Builds.combines {a b f : Formula p} {x y z : Combination} (ha : a.Builds x) (hb : b.Builds y)
    {op : ZMod p.size → ZMod p.size → ZMod p.size} (h : Combination.Combines p op x y z)
    (hbuild : f.build = .ok z) (hvalue : ∀ v, f.value v = op (a.value v) (b.value v)) : f.Builds z := by
  constructor
  · exact hbuild
  · exact h.over_field
  · intro i hi
    exact (h.vars i hi).elim (ha.nonneg i) (hb.nonneg i)
  · intro v
    rw [h.denote_eq, ha.denote_eq, hb.denote_eq, hvalue]

/-- Every formula makes a combination. -/
theorem exists_builds (f : Formula p) : ∃ x, f.Builds x := by
  induction f with
  | affine constant terms hnodup => exact ⟨_, builds_affine constant terms hnodup⟩
  | add a b iha ihb =>
    obtain ⟨x, hx⟩ := iha
    obtain ⟨y, hy⟩ := ihb
    obtain ⟨z, hz, hcombines⟩ := Combination.exists_add hx.over_field hy.over_field
    have hbuild : (add a b).build = .ok z := by
      rw [build, hx.build_eq, hy.build_eq]
      exact hz
    exact ⟨z, hx.combines hy hcombines hbuild fun _ => rfl⟩
  | sub a b iha ihb =>
    obtain ⟨x, hx⟩ := iha
    obtain ⟨y, hy⟩ := ihb
    obtain ⟨z, hz, hcombines⟩ := Combination.exists_sub hx.over_field hy.over_field
    have hbuild : (sub a b).build = .ok z := by
      rw [build, hx.build_eq, hy.build_eq]
      exact hz
    exact ⟨z, hx.combines hy hcombines hbuild fun _ => rfl⟩
  | neg a iha =>
    obtain ⟨x, hx⟩ := iha
    have hbuild : (neg a).build = .ok x.neg := by
      rw [build, hx.build_eq]
      rfl
    exact ⟨x.neg, hx.combines hx (Combination.combines_neg hx.over_field) hbuild fun _ => rfl⟩
  | scale a scalar factor hscalar iha =>
    obtain ⟨x, hx⟩ := iha
    obtain ⟨z, hz, hcombines⟩ := Combination.exists_scale hx.over_field hscalar
    have hbuild : (scale a scalar factor hscalar).build = .ok z := by
      rw [build, hx.build_eq]
      exact hz
    exact ⟨z, hx.combines hx hcombines hbuild fun _ => rfl⟩

end Formula

end WordCircuit
