import Mathlib.Data.Set.Basic
import WordCircuit.Proofs.Scalar

namespace WordCircuit

namespace Datum

/-- A set takes a value in exactly if no member coincides with it. -/
theorem distinct_concat (values : List Datum) (value : Datum) :
    distinct (values ++ [value]) =
      if (distinct values).any fun member => coincide member value then distinct values
      else distinct values ++ [value] := by
  rw [distinct, List.foldl_append]
  rfl

theorem pairwise_distinct (values : List Datum) :
    (distinct values).Pairwise fun a b => coincide a b = false := by
  induction values using List.reverseRecOn with
  | nil => exact .nil
  | append_singleton values value ih =>
    rw [distinct_concat]
    split
    · exact ih
    · rename_i hnone
      refine List.pairwise_append.mpr ⟨ih, List.pairwise_singleton _ _, fun member hmem last hlast => ?_⟩
      rw [List.mem_singleton.mp hlast, Bool.eq_false_iff]
      intro hcoincide
      exact hnone (List.any_eq_true.mpr ⟨member, hmem, hcoincide⟩)

theorem distinct_subset (values : List Datum) : distinct values ⊆ values := by
  induction values using List.reverseRecOn with
  | nil => exact List.Subset.refl _
  | append_singleton values value ih =>
    rw [distinct_concat]
    split
    · exact List.subset_append_of_subset_left _ ih
    · exact List.append_subset.mpr
        ⟨List.subset_append_of_subset_left _ ih, List.subset_append_right _ _⟩

/-- Each value has a member that stands for it. -/
theorem exists_member_of_mem {values : List Datum} (hrefl : ∀ value ∈ values, coincide value value = true) :
    ∀ value ∈ values, ∃ member ∈ distinct values, coincide member value = true := by
  induction values using List.reverseRecOn with
  | nil => simp
  | append_singleton values value ih =>
    intro other hother
    rw [distinct_concat]
    obtain hearlier | hlast := List.mem_append.mp hother
    · obtain ⟨member, hmem, hcoincide⟩ :=
        ih (fun value hvalue => hrefl value (List.mem_append_left _ hvalue)) other hearlier
      refine ⟨member, ?_, hcoincide⟩
      split
      · exact hmem
      · exact List.mem_append_left _ hmem
    · obtain rfl := List.mem_singleton.mp hlast
      split
      · rename_i hsome
        exact List.any_eq_true.mp hsome
      · exact ⟨other, List.mem_append_right _ (List.mem_singleton_self _), hrefl other hother⟩

/-- Among the values, to coincide is an equivalence. -/
structure Coherent (values : List Datum) : Prop where
  refl : ∀ a ∈ values, coincide a a = true
  symm : ∀ a ∈ values, ∀ b ∈ values, coincide a b = true → coincide b a = true
  trans : ∀ a ∈ values, ∀ b ∈ values, ∀ c ∈ values, coincide a b = true → coincide b c = true →
    coincide a c = true

/-- The values that coincide with a given one. -/
def fellows (values : List Datum) (a : Datum) : Set Datum :=
  {b | b ∈ values ∧ coincide a b = true}

theorem Coherent.coincide_iff {values : List Datum} (h : Coherent values) {a b : Datum} (ha : a ∈ values)
    (hb : b ∈ values) : coincide a b = true ↔ fellows values a = fellows values b := by
  constructor
  · intro hab
    ext c
    constructor
    · rintro ⟨hc, hac⟩
      exact ⟨hc, h.trans b hb a ha c hc (h.symm a ha b hb hab) hac⟩
    · rintro ⟨hc, hbc⟩
      exact ⟨hc, h.trans a ha b hb c hc hab hbc⟩
  · intro heq
    have hmem : b ∈ fellows values b := ⟨hb, h.refl b hb⟩
    rw [← heq] at hmem
    exact hmem.2

/-- In whatever order the values come, the members of their set are of different classes. -/
theorem Coherent.nodup_fellows {values others : List Datum} (h : Coherent values)
    (hperm : others.Perm values) : ((distinct others).map (fellows values)).Nodup := by
  refine List.pairwise_map.mpr ((pairwise_distinct others).imp_of_mem ?_)
  intro a b ha hb hapart heq
  have ha := hperm.mem_iff.mp (distinct_subset others ha)
  have hb := hperm.mem_iff.mp (distinct_subset others hb)
  rw [(h.coincide_iff ha hb).mpr heq] at hapart
  cases hapart

theorem Coherent.mem_map_fellows_iff {values others : List Datum} (h : Coherent values)
    (hperm : others.Perm values) (group : Set Datum) :
    group ∈ (distinct others).map (fellows values) ↔ group ∈ values.map (fellows values) := by
  rw [List.mem_map, List.mem_map]
  constructor
  · rintro ⟨a, ha, rfl⟩
    exact ⟨a, hperm.mem_iff.mp (distinct_subset others ha), rfl⟩
  · rintro ⟨a, ha, rfl⟩
    have hrefl : ∀ b ∈ others, coincide b b = true := fun b hb => h.refl b (hperm.mem_iff.mp hb)
    obtain ⟨member, hmember, hcoincide⟩ := exists_member_of_mem hrefl a (hperm.mem_iff.mpr ha)
    have hvalue := hperm.mem_iff.mp (distinct_subset others hmember)
    exact ⟨member, hmember, (h.coincide_iff hvalue ha).mp hcoincide⟩

/-- Where to coincide is an equivalence, a set has one member of each class, and so its size does
    not depend on the order in which the values come. -/
theorem Coherent.length_distinct_eq {values others : List Datum} (h : Coherent values)
    (hperm : values.Perm others) : (distinct values).length = (distinct others).length := by
  have hrefl := List.Perm.refl values
  have hclasses : ((distinct values).map (fellows values)).Perm
      ((distinct others).map (fellows values)) := by
    rw [List.perm_ext_iff_of_nodup (h.nodup_fellows hrefl) (h.nodup_fellows hperm.symm)]
    intro group
    rw [h.mem_map_fellows_iff hrefl, h.mem_map_fellows_iff hperm.symm]
  simpa using hclasses.length_eq

end Datum

end WordCircuit
