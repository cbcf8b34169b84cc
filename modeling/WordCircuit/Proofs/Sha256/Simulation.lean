import WordCircuit.Proofs.Direct.Words
import WordCircuit.Proofs.Sha256.Standard

namespace WordCircuit

open Sha256 (required)
open Sha256.Standard (Word)

namespace Direct

/-- Direct evaluation gives the word, and it leaves the journal alone. -/
def Gives (act : Action Journal Datum) (v : Word) : Prop :=
  ∀ j, act.exec j = (.ok (.int v.toNat), j)

theorem gives_of_follows {act : Action Journal Datum} {v : Word}
    (h : ∀ j, values.Follows j act (values.Reads · .u32) (.ok v)) : Gives act v := by
  intro j
  obtain ⟨d, j', hexec, rfl, rfl⟩ := h j
  exact hexec

/-- What direct evaluation gives is the word that was expected of it. -/
theorem Gives.expected_eq {act : Action Journal Datum} {v : Word} (h : Gives act v) {j : Journal}
    {expected : Except Fault.Kind Word}
    (hfollows : values.Follows j act (values.Reads · .u32) expected) : expected = .ok v := by
  obtain ⟨u, j', rfl, rfl, -, hu⟩ := hfollows.of_exec (h j)
  have hsame : ValueType.u32.datum v = ValueType.u32.datum u := hu
  exact congrArg Except.ok (ValueType.datum_inj.mp hsame).symm

end Direct

/-- The words of a backend simulate those of direct evaluation on the operations that
    SHA-256 uses: whenever handles stand for words on which direct evaluation gives a
    word, the backend succeeds with a handle of that word. -/
structure Reading.SimulatesDirect {σ : Type} {Handle : ValueType → Type}
    (R : Reading σ (Handle .u32) Word) (b : Backend σ Handle) : Prop where
  offers : b.require .u32 required "sha256" = .ok ()
  note : ∀ (w : R.World) (notice : Notice), R.Yields w (b.note notice) fun _ _ => True
  constant : ∀ (w : R.World) (n : Int) {r : Word},
    Direct.Gives ((Direct.backend Direct.table).constant .u32 (.int n)) r →
      R.Yields w (b.constant .u32 (.int n)) (R.Reads · · r)
  and : ∀ {w : R.World} {x y : Handle .u32} {u v r : Word}, R.Reads w x u → R.Reads w y v →
    Direct.Gives ((Direct.backend Direct.table).and .u32 (.int u.toNat) (.int v.toNat)) r →
      R.Yields w (b.and .u32 x y) (R.Reads · · r)
  xor : ∀ {w : R.World} {x y : Handle .u32} {u v r : Word}, R.Reads w x u → R.Reads w y v →
    Direct.Gives ((Direct.backend Direct.table).xor .u32 (.int u.toNat) (.int v.toNat)) r →
      R.Yields w (b.xor .u32 x y) (R.Reads · · r)
  not : ∀ {w : R.World} {x : Handle .u32} {u r : Word}, R.Reads w x u →
    Direct.Gives ((Direct.backend Direct.table).not .u32 (.int u.toNat)) r →
      R.Yields w (b.not .u32 x) (R.Reads · · r)
  rotr : ∀ {w : R.World} {x : Handle .u32} {u r : Word} (k : Int), R.Reads w x u →
    Direct.Gives ((Direct.backend Direct.table).rotr .u32 (.int u.toNat) (.int k)) r →
      R.Yields w (b.rotr .u32 x (.int k)) (R.Reads · · r)
  shr : ∀ {w : R.World} {x : Handle .u32} {u r : Word} (k : Int), R.Reads w x u →
    Direct.Gives ((Direct.backend Direct.table).shr .u32 (.int u.toNat) (.int k)) r →
      R.Yields w (b.shr .u32 x (.int k)) (R.Reads · · r)
  wrappingAdd : ∀ {w : R.World} {x y : Handle .u32} {u v r : Word}, R.Reads w x u → R.Reads w y v →
    Direct.Gives ((Direct.backend Direct.table).wrappingAdd .u32 (.int u.toNat) (.int v.toNat)) r →
      R.Yields w (b.wrappingAdd .u32 x y) (R.Reads · · r)

/-- The handles of words under an interpretation of all types. -/
abbrev Interpretation.wordReading {σ : Type} {Handle : ValueType → Type}
    (I : Interpretation σ Handle) : Reading σ (Handle .u32) Word where
  toFrame := I.toFrame
  Reads w x v := I.Reads w .u32 x v
  reads_of_grows := I.reads_of_grows

/-- A backend that computes on words as on bit vectors simulates direct evaluation,
    which does so as well. -/
theorem Interpretation.Models.simulatesDirect {σ : Type} {Handle : ValueType → Type}
    {I : Interpretation σ Handle} {b : Backend σ Handle} (h : I.Models b .u32)
    (hoffers : b.require .u32 required "sha256" = .ok ())
    (hnote : ∀ (w : I.World) (notice : Notice), I.Yields w (b.note notice) fun _ _ => True) :
    I.wordReading.SimulatesDirect b := by
  have hdirect := Direct.values_models .u32
  exact {
    offers := hoffers
    note := hnote
    constant := fun w n r hr => by
      have hfollows := h.constant w (.int n)
      rwa [hr.expected_eq (hdirect.constant .empty (.int n))] at hfollows
    and := fun hx hy hr => by
      have hfollows := h.binary .and hx hy
      rwa [hr.expected_eq (hdirect.binary .and (w := .empty) rfl rfl)] at hfollows
    xor := fun hx hy hr => by
      have hfollows := h.binary .xor hx hy
      rwa [hr.expected_eq (hdirect.binary .xor (w := .empty) rfl rfl)] at hfollows
    not := fun hx hr => by
      have hfollows := h.not hx
      have hsame := hr.expected_eq (Frame.Follows.of_yields (hdirect.not (w := .empty) rfl))
      rwa [Except.ok.inj hsame] at hfollows
    rotr := fun k hx hr => by
      have hfollows := h.shift .rotr (.int k) hx
      rwa [hr.expected_eq (hdirect.shift .rotr (w := .empty) (.int k) rfl)] at hfollows
    shr := fun k hx hr => by
      have hfollows := h.shift .shr (.int k) hx
      rwa [hr.expected_eq (hdirect.shift .shr (w := .empty) (.int k) rfl)] at hfollows
    wrappingAdd := fun hx hy hr => by
      have hfollows := h.binary .wrappingAdd hx hy
      rwa [hr.expected_eq (hdirect.binary .wrappingAdd (w := .empty) rfl rfl)] at hfollows }

namespace Reading.SimulatesDirect

variable {σ : Type} {Handle : ValueType → Type} {R : Reading σ (Handle .u32) Word}
  {b : Backend σ Handle} {w : R.World} {x y : Handle .u32} {u v : Word}

theorem yields_constant (h : R.SimulatesDirect b) (w : R.World) (v : Word) :
    R.Yields w (b.constant .u32 (.int v.toNat)) (R.Reads · · v) := by
  refine h.constant w v.toNat (Direct.gives_of_follows fun j => ?_)
  have hfollows := (Direct.values_models .u32).constant j (.int v.toNat)
  have hvalue : ValueType.u32.value (.int v.toNat) = .ok v := ValueType.value_datum .u32 v
  rwa [hvalue] at hfollows

theorem yields_and (h : R.SimulatesDirect b) (hx : R.Reads w x u) (hy : R.Reads w y v) :
    R.Yields w (b.and .u32 x y) (R.Reads · · (u &&& v)) :=
  h.and hx hy (Direct.gives_of_follows fun _ => (Direct.values_models .u32).binary .and rfl rfl)

theorem yields_xor (h : R.SimulatesDirect b) (hx : R.Reads w x u) (hy : R.Reads w y v) :
    R.Yields w (b.xor .u32 x y) (R.Reads · · (u ^^^ v)) :=
  h.xor hx hy (Direct.gives_of_follows fun _ => (Direct.values_models .u32).binary .xor rfl rfl)

theorem yields_not (h : R.SimulatesDirect b) (hx : R.Reads w x u) :
    R.Yields w (b.not .u32 x) (R.Reads · · (~~~u)) :=
  h.not hx (Direct.gives_of_follows fun _ => (Direct.values_models .u32).not rfl)

theorem yields_wrappingAdd (h : R.SimulatesDirect b) (hx : R.Reads w x u) (hy : R.Reads w y v) :
    R.Yields w (b.wrappingAdd .u32 x y) (R.Reads · · (u + v)) :=
  h.wrappingAdd hx hy
    (Direct.gives_of_follows fun _ => (Direct.values_models .u32).binary .wrappingAdd rfl rfl)

theorem yields_rotr (h : R.SimulatesDirect b) (hx : R.Reads w x u) {k : Nat} (hk : k < 32) :
    R.Yields w (b.rotr .u32 x (.int k)) (R.Reads · · (u.rotateRight k)) := by
  refine h.rotr k hx (Direct.gives_of_follows fun j => ?_)
  have hfollows := (Direct.values_models .u32).shift (w := j) .rotr (.int k) (u := u) rfl
  have hvalue : ShiftOp.rotr.value .u32 u (.int k) = .ok (u.rotateRight k) :=
    ShiftOp.rotr.value_of_isWord .u32 rfl u (Nat.le_of_lt_succ hk)
  rwa [hvalue] at hfollows

theorem yields_shr (h : R.SimulatesDirect b) (hx : R.Reads w x u) {k : Nat} (hk : k ≤ 32) :
    R.Yields w (b.shr .u32 x (.int k)) (R.Reads · · (u >>> k)) := by
  refine h.shr k hx (Direct.gives_of_follows fun j => ?_)
  have hfollows := (Direct.values_models .u32).shift (w := j) .shr (.int k) (u := u) rfl
  have hvalue : ShiftOp.shr.value .u32 u (.int k) = .ok (u >>> k) :=
    ShiftOp.shr.value_of_isWord .u32 rfl u hk
  rwa [hvalue] at hfollows

end Reading.SimulatesDirect

end WordCircuit
