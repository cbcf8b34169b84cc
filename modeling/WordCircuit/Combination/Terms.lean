import WordCircuit.Field.Element

namespace WordCircuit

/-- Coefficients by variable index, in the order in which the indices first
    appeared. No index appears twice. -/
structure Terms where
  entries : List (Int × Element)
  nodup : (entries.map Prod.fst).Nodup

namespace Terms

/-- Replaces the coefficient of `index`, or appends it when there is none. -/
def putEntry (index : Int) (coefficient : Element) : List (Int × Element) → List (Int × Element)
  | [] => [(index, coefficient)]
  | entry :: rest =>
    if entry.1 = index then (index, coefficient) :: rest
    else entry :: putEntry index coefficient rest

theorem mem_keys_putEntry {index other : Int} {coefficient : Element}
    {entries : List (Int × Element)} :
    other ∈ (putEntry index coefficient entries).map Prod.fst ↔
      other = index ∨ other ∈ entries.map Prod.fst := by
  induction entries with
  | nil => simp [putEntry]
  | cons entry rest ih =>
    by_cases h : entry.1 = index
    · simp [putEntry, h]
    · simp only [putEntry, h, if_false, List.map_cons, List.mem_cons, ih]
      exact or_left_comm

theorem nodup_keys_putEntry {index : Int} {coefficient : Element}
    {entries : List (Int × Element)} (hnodup : (entries.map Prod.fst).Nodup) :
    ((putEntry index coefficient entries).map Prod.fst).Nodup := by
  induction entries with
  | nil => simp [putEntry]
  | cons entry rest ih =>
    rw [List.map_cons, List.nodup_cons] at hnodup
    by_cases h : entry.1 = index
    · rw [putEntry, if_pos h, List.map_cons, List.nodup_cons]
      exact h ▸ hnodup
    · rw [putEntry, if_neg h, List.map_cons, List.nodup_cons, mem_keys_putEntry]
      exact ⟨fun hmem => hmem.elim h hnodup.1, ih hnodup.2⟩

def empty : Terms := ⟨[], List.nodup_nil⟩

def single (index : Int) (coefficient : Element) : Terms :=
  ⟨[(index, coefficient)], List.nodup_cons.2 ⟨List.not_mem_nil, List.nodup_nil⟩⟩

def size (terms : Terms) : Nat :=
  terms.entries.length

def find? (terms : Terms) (index : Int) : Option Element :=
  terms.entries.lookup index

/-- Sets the coefficient of `index`; an index that is present keeps its place
    and a new one goes last. -/
def insert (terms : Terms) (index : Int) (coefficient : Element) : Terms :=
  ⟨putEntry index coefficient terms.entries, nodup_keys_putEntry terms.nodup⟩

/-- The terms of a list of pairs. A repeated index has the place of its first
    pair and the coefficient of its last. -/
def ofList (pairs : List (Int × Element)) : Terms :=
  pairs.foldl (fun terms pair => terms.insert pair.1 pair.2) empty

/-- Drops the terms whose coefficient is zero. -/
def dropZeros (terms : Terms) : Terms where
  entries := terms.entries.filter fun entry => !entry.2.isZero
  nodup := terms.nodup.sublist (List.filter_sublist.map Prod.fst)

/-- Applies `f` to every coefficient, in place. -/
def map (f : Element → Element) (terms : Terms) : Terms where
  entries := terms.entries.map fun entry => (entry.1, f entry.2)
  nodup := by simpa [List.map_map, Function.comp_def] using terms.nodup

/-- Applies `f` to the coefficients in order and keeps the indices, up to the
    first refusal. -/
def mapEntries (f : Element → Except Fault Element) :
    (entries : List (Int × Element)) →
      Except Fault { mapped : List (Int × Element) // mapped.map Prod.fst = entries.map Prod.fst }
  | [] => .ok ⟨[], rfl⟩
  | (index, coefficient) :: rest => do
    let image ← f coefficient
    let ⟨mapped, hkeys⟩ ← mapEntries f rest
    return ⟨(index, image) :: mapped, by simp [hkeys]⟩

/-- Applies `f` to every coefficient, up to the first refusal. -/
def mapM (f : Element → Except Fault Element) (terms : Terms) : Except Fault Terms := do
  let ⟨mapped, hkeys⟩ ← mapEntries f terms.entries
  return ⟨mapped, hkeys ▸ terms.nodup⟩

/-- Brings the terms of `other` into `terms`, one after the other: an index in
    both gets `both` of the two coefficients, and an index of `other` alone is
    appended with `alone` of its coefficient. -/
def mergeM (both : Element → Element → Except Fault Element) (alone : Element → Element)
    (terms other : Terms) : Except Fault Terms :=
  other.entries.foldlM (fun merged entry =>
    match merged.find? entry.1 with
    | some coefficient => (both coefficient entry.2).map (merged.insert entry.1)
    | none => .ok (merged.insert entry.1 (alone entry.2))) terms

/-- Whether two collections give every index the same coefficient. The order of
    the terms does not matter. -/
def same (terms other : Terms) : Bool :=
  terms.size == other.size &&
    terms.entries.all fun entry => (other.find? entry.1).any fun found => found.alike entry.2

/-- The terms by increasing index. -/
def sorted (terms : Terms) : List (Int × Element) :=
  terms.entries.mergeSort fun left right => decide (left.1 ≤ right.1)

end Terms

end WordCircuit
