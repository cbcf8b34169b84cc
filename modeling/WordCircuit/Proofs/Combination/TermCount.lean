import WordCircuit.Proofs.Action
import WordCircuit.Proofs.Combination.Arithmetic

namespace WordCircuit

namespace Terms

theorem length_putEntry_le (index : Int) (coefficient : Element) (entries : List (Int × Element)) :
    (putEntry index coefficient entries).length ≤ entries.length + 1 := by
  induction entries with
  | nil => simp [putEntry]
  | cons entry rest ih =>
    rw [putEntry]
    split
    · simp
    · simpa using ih

theorem size_insert_le (terms : Terms) (index : Int) (coefficient : Element) :
    (terms.insert index coefficient).size ≤ terms.size + 1 :=
  length_putEntry_le index coefficient terms.entries

theorem exists_insert_of_mergeStep {both : Element → Element → Except Fault Element}
    {alone : Element → Element} {merged next : Terms} {entry : Int × Element}
    (hnext : mergeStep both alone merged entry = .ok next) :
    ∃ coefficient, next = merged.insert entry.1 coefficient := by
  rw [mergeStep] at hnext
  split at hnext
  · rename_i old _
    cases hboth : both old entry.2 with
    | ok coefficient =>
      rw [hboth] at hnext
      exact ⟨coefficient, (Except.ok.inj hnext).symm⟩
    | error fault =>
      rw [hboth] at hnext
      cases hnext
  · exact ⟨alone entry.2, (Except.ok.inj hnext).symm⟩

/-- A merge adds at most one term for each term that it brings in. -/
theorem size_mergeM_le {both : Element → Element → Except Fault Element} {alone : Element → Element}
    {terms other merged : Terms} (hmerged : terms.mergeM both alone other = .ok merged) :
    merged.size ≤ terms.size + other.size := by
  rw [mergeM_eq_foldlM] at hmerged
  change merged.size ≤ terms.size + other.entries.length
  generalize other.entries = entries at hmerged ⊢
  induction entries generalizing terms with
  | nil =>
    obtain rfl := Except.ok.inj hmerged
    simp
  | cons entry rest ih =>
    rw [List.foldlM_cons] at hmerged
    obtain ⟨next, hnext, hrest⟩ := bind_eq_ok_iff.mp hmerged
    obtain ⟨coefficient, rfl⟩ := exists_insert_of_mergeStep hnext
    have hinsert := size_insert_le terms entry.1 coefficient
    have hmore := ih hrest
    rw [List.length_cons]
    omega

theorem size_mapM {f : Element → Except Fault Element} {terms mapped : Terms}
    (hmapped : terms.mapM f = .ok mapped) : mapped.size = terms.size := by
  rw [mapM] at hmapped
  obtain ⟨⟨entries, hkeys⟩, -, heq⟩ := bind_eq_ok_iff.mp hmapped
  obtain rfl := Except.ok.inj heq
  have hlength := congrArg List.length hkeys
  rwa [List.length_map, List.length_map] at hlength

end Terms

namespace Combination

variable {x y z : Combination}

theorem size_make_le (order : Order) (constant : Element) (terms : Terms) :
    (make order constant terms).terms.size ≤ terms.size :=
  List.length_filter_le _ _

theorem size_ofElement (e : Element) : (ofElement e).terms.size = 0 :=
  rfl

theorem size_var_le (order : Order) (index : Int) : (var order index).terms.size ≤ 1 :=
  size_make_le _ _ _

/-- Whatever is merged, there are no more terms than the two combinations have together. -/
theorem size_le_of_merge {both : Element → Element → Except Fault Element} {alone : Element → Element}
    {constant : Except Fault Element}
    (h : (do
      x.checkOrder y
      let terms ← x.terms.mergeM both alone y.terms
      let e ← constant
      return make x.order e terms) = .ok z) : z.terms.size ≤ x.terms.size + y.terms.size := by
  obtain ⟨-, -, h⟩ := bind_eq_ok_iff.mp h
  obtain ⟨merged, hmerged, h⟩ := bind_eq_ok_iff.mp h
  obtain ⟨e, -, h⟩ := bind_eq_ok_iff.mp h
  obtain rfl := Except.ok.inj h
  exact (size_make_le _ _ _).trans (Terms.size_mergeM_le hmerged)

theorem size_add_le (h : x.add y = .ok z) : z.terms.size ≤ x.terms.size + y.terms.size :=
  size_le_of_merge h

theorem size_sub_le (h : x.sub y = .ok z) : z.terms.size ≤ x.terms.size + y.terms.size :=
  size_le_of_merge h

theorem size_scale_le {n : Int} (h : x.scale (.int n) = .ok z) : z.terms.size ≤ x.terms.size := by
  obtain ⟨constant, -, h⟩ := bind_eq_ok_iff.mp h
  obtain ⟨mapped, hmapped, h⟩ := bind_eq_ok_iff.mp h
  obtain rfl := Except.ok.inj h
  rw [← Terms.size_mapM hmapped]
  exact size_make_le _ _ _

end Combination

end WordCircuit
