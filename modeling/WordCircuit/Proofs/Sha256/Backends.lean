import WordCircuit.Proofs.Program.Sliced
import WordCircuit.Proofs.Program.Word
import WordCircuit.Proofs.Sha256.Compression

namespace WordCircuit

open Sha256 (required)

namespace Direct

/-- The values with a journal in which events may be noted. -/
abbrev journalled : Interpretation Journal fun _ => Datum :=
  values.widen (fun _ _ => True) (fun _ => trivial) (fun _ _ _ _ _ => trivial) fun _ _ _ _ _ _ h => h

theorem journalled_models (ty : ValueType) : journalled.Models (backend table) ty :=
  (values_models ty).widen fun _ _ _ => trivial

theorem yields_note (j : Journal) (notice : Notice) :
    journalled.Yields j ((backend table).note notice) fun _ _ => True :=
  ⟨(), j.note notice, rfl, trivial, trivial⟩

/-- Direct evaluation simulates itself. -/
theorem journalled_simulatesDirect : journalled.wordReading.SimulatesDirect (backend table) :=
  (journalled_models .u32).simulatesDirect (Table.require_of_offered rfl (by decide) _ _) yields_note

end Direct

namespace BitSliced

/-- Slicing offers on words what SHA-256 requires, over every inner backend. -/
theorem require_sha256 {σ : Type} {Inner : ValueType → Type} (inner : Backend σ Inner) :
    (backend inner (table inner)).require .u32 required "sha256" = .ok () := by
  refine Table.require_of_offered rfl ?_ _ _
  rcases inherited_eq inner .assertEq with heq | heq <;> rw [heq] <;> decide

/-- A word of bits stands for the bit vector that its truth values spell. -/
abbrev directWords : Interpretation Journal (Handle Datum) :=
  sliced Direct.journalled.truthReading

theorem directWords_simulatesDirect : directWords.wordReading.SimulatesDirect overDirect := by
  have hmodels := sliced_models (Direct.journalled_models .bool).respects .u32
  exact hmodels.simulatesDirect (require_sha256 _) Direct.yields_note

end BitSliced

namespace ConstraintSystem

/-- What words of combinations stand for at the assignments that are given, while gates
    are posed and events noted. -/
abbrev circuitWords (given : Assignment → Prop) :
    Interpretation ConstraintSystem (BitSliced.Handle Combination) :=
  (BitSliced.sliced (bitReading given)).widen Continues (fun _ => .refl) (fun _ _ _ => Continues.trans)
    fun _ _ _ _ _ hcontinues hx =>
      ⟨hx.length_eq, fun i hi => (hx.reads i hi).mono hcontinues.precedes fun _ => id⟩

theorem circuitWords_simulatesDirect (given : Assignment → Prop) (p : Modulus) :
    (circuitWords given).wordReading.SimulatesDirect (Host.circuit p).backend := by
  have hmodels : (circuitWords given).Models (Host.circuit p).backend .u32 :=
    (BitSliced.sliced_models (bitReading_respects given p) .u32).widen fun _ _ => Extends.continues
  exact hmodels.simulatesDirect (BitSliced.require_sha256 _) fun s notice =>
    ⟨(), _, rfl, .noted .refl _, trivial⟩

end ConstraintSystem

end WordCircuit
