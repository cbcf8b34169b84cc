namespace WordCircuit

/-- An event that a computation reports about its progress. -/
inductive Notice where
  /-- So many variables have been declared. -/
  | variables (declared : Nat)
  /-- So many constraints have been posed, over so many variables. -/
  | constraints (posed declared : Nat)
  /-- The named backend starts a compression of SHA-256. -/
  | compression (backend : String)
deriving DecidableEq

def Notice.text : Notice → String
  | .variables declared => s!"{declared} variables declared"
  | .constraints posed declared => s!"{posed} constraints over {declared} variables"
  | .compression backend => s!"sha256 compression on {backend}"

/-- The notices given so far. Counts are reported at the multiples of `interval`. -/
structure Journal where
  interval : Nat
  notices : Array Notice

namespace Journal

def empty : Journal := ⟨10000, #[]⟩

def note (journal : Journal) (notice : Notice) : Journal :=
  { journal with notices := journal.notices.push notice }

/-- Notes an event that belongs to a count, if the count is due for a report. -/
def noteCount (journal : Journal) (count : Nat) (notice : Notice) : Journal :=
  if count % journal.interval = 0 then journal.note notice else journal

end Journal

end WordCircuit
