import BlockStore.Error

namespace BlockStore

/-- A step on a state of type `σ`. What it did to the state stays done when it fails. -/
abbrev Action (σ : Type) := ExceptT Failure (StateM σ)

namespace Action

variable {σ τ α : Type}

def refuse (e : StoreError) : Action σ α := throw (.error e)

/-- Makes an error of `act` a value. Faults pass. -/
def attempt (act : Action σ α) : Action σ (Except StoreError α) := fun s =>
  match act s with
  | (.ok a, s) => (.ok (.ok a), s)
  | (.error (.error e), s) => (.ok (.error e), s)
  | (.error (.fault f), s) => (.error (.fault f), s)

/-- Runs `act` on a part of the state. -/
def within (get : σ → τ) (set : σ → τ → σ) (act : Action τ α) : Action σ α := fun s =>
  let (r, t) := act (get s)
  (r, set s t)

end Action

end BlockStore
