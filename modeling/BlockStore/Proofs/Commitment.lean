import BlockStore.Proofs.Halting
import BlockStore.Proofs.Stages
import BlockStore.Store

namespace BlockStore

open Halting

namespace Volume

variable {δ κ : Type} [Device δ] [Keeper δ κ]

/-- What is left of a pass once the evacuation has been stored. -/
def repack (leftmost oldStop : Nat) (evacuated : List Chunk) : Action (Volume δ κ) Unit := do
  onEngine Engine.sync
  let root? := (← get).root?
  let newStop := (← get).engine.occupancy.stop
  let returned ← bringBack oldStop newStop evacuated
  settle root? leftmost oldStop newStop returned

/-- A pass that halts once it has stored the records for the first time. -/
def runPassToStore (leftmost : Nat) (moves : List Chunk) : Halting (Volume δ κ) Unit := do
  through (onEngine Engine.sync)
  let oldStop := (← get).engine.occupancy.stop
  let evacuated ← through (evacuate leftmost oldStop moves)
  upTo (storeReserving (.between leftmost oldStop))
  through (repack leftmost oldStop evacuated)

def compactToStore (passBytes : Nat) : Halting (Volume δ κ) Bool := do
  let v ← get
  let first := (← v.engine.occupancy.firstGapPos) / blockSize
  match ← Compaction.choose v.engine.occupancy v.chunks first passBytes with
  | [] => return false
  | c :: moves =>
    runPassToStore c.block.toNat (c :: moves)
    return true

@[simp] theorem finish_runPassToStore (leftmost : Nat) (moves : List Chunk) :
    (runPassToStore leftmost moves : Halting (Volume δ κ) Unit).finish = runPass leftmost moves := by
  rw [runPass_eq]
  simp [runPassToStore, repack]

@[simp] theorem finish_compactToStore (passBytes : Nat) :
    (compactToStore passBytes : Halting (Volume δ κ) Bool).finish = compact passBytes := by
  simp only [compactToStore, compact, finish_bind, finish_get, finish_checked]
  congr! with v pos moves
  cases moves with
  | nil => rfl
  | cons c moves => simp

end Volume

namespace Store

variable {δ : Type} [Device δ]

/-- A compaction that halts once a commit in it has answered. -/
def compactToCommit (target passBytes : Nat) : Halting (Store δ) Bool := do
  let v ← get
  if v.engine.readOnly || !v.engine.reuse then return false
  if target ≤ (← v.engine.occupancy.fillRateWithout v.records.removedBlocks) then return false
  unless v.records.removed.isEmpty do upTo (discard commit)
  Volume.compactToStore passBytes

def compactAllToCommit (spare target passBytes : Nat) : Halting (Store δ) Bool :=
  match spare with
  | 0 => compactToCommit target passBytes
  | spare + 1 => do
    if ← compactToCommit target passBytes then
      discard (compactAllToCommit spare target passBytes)
      return true
    else return false

def maintainToCommit (spare : Nat) : Halting (Store δ) Bool := do
  let e := (← get).engine
  if e.readOnly then return false
  if e.settings.compactBelow ≤ (← e.occupancy.fillRate) && !e.occupancy.fragmented then
    return false
  compactAllToCommit spare e.settings.compactBelow e.settings.passBytes

def closeToCommit : Halting (Store δ) Unit := do
  if (← get).engine.readOnly then return
  if (← get).records.dirty then upTo (discard commit)
  through (Volume.onEngine do
    discard (Engine.shrink (← get).settings.shrinkFrom)
    Engine.sync)

@[simp] theorem finish_compactToCommit (target passBytes : Nat) :
    (compactToCommit target passBytes : Halting (Store δ) Bool).finish =
      compact target passBytes := by
  simp [compactToCommit, compact]

@[simp] theorem finish_compactAllToCommit (spare target passBytes : Nat) :
    (compactAllToCommit spare target passBytes : Halting (Store δ) Bool).finish =
      compactAll spare target passBytes := by
  induction spare with
  | zero => exact finish_compactToCommit target passBytes
  | succ spare ih => simp [compactAllToCommit, compactAll, ih]

@[simp] theorem finish_maintainToCommit (spare : Nat) :
    (maintainToCommit spare : Halting (Store δ) Bool).finish = maintain spare := by
  simp [maintainToCommit, maintain]

@[simp] theorem finish_closeToCommit :
    (closeToCommit : Halting (Store δ) Unit).finish = close := by
  simp [closeToCommit, close]

end Store

end BlockStore
