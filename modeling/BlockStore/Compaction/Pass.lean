import BlockStore.Compaction.Candidates
import BlockStore.Volume

namespace BlockStore.Volume

variable {δ κ : Type} [Device δ] [Keeper δ κ]

/-- Gives a chunk a copy on free blocks outside `r` in place of its old blocks. A chunk that is no
longer kept stays where it is. -/
def move (id : UInt32) (r : Reserved) : Action (Volume δ κ) (Option Chunk) := do
  let some current := (← get).chunk? id | return none
  let moved ← onEngine do
    let moved ← Engine.copy current r
    Engine.freeChunk current
    return moved
  register moved
  return some moved

/-- Moves a chunk that starts at or behind `boundary` to blocks before it, if it has room there. -/
def moveBelow (id : UInt32) (boundary : Nat) : Action (Volume δ κ) Bool := do
  let some current := (← get).chunk? id | return false
  if current.block.toNat < boundary then return false
  let target ← (← get).engine.occupancy.preview current.len.toNat (.above boundary)
  if boundary ≤ target then return false
  let some moved ← move current.id (.above boundary) | return false
  if boundary < (← moved.stop) then throw (.fault .assertion)
  return true

/-- Has the records stored while `r` is closed to new chunks. -/
def storeReserving (r : Reserved) : Action (Volume δ κ) Unit := do
  modify fun v => { v with engine := { v.engine with reserved := r } }
  let stored ← (store : Action (Volume δ κ) Unit).attempt
  modify fun v => { v with engine := { v.engine with reserved := .nothing } }
  if let .error e := stored then .refuse e

/-- Brings the root, and whatever has become the root since, back before the blocks that the
evacuation used. -/
def returnRoot (root : Chunk) (inside : Bool) (oldStop newStop : Nat) :
    Action (Volume δ κ) Unit := do
  let moved ← moveBelow root.id oldStop
  storeReserving (.between oldStop newStop)
  onEngine Engine.sync
  let boundary := if moved || inside then newStop else root.block.toNat
  let movedLate ← if moved then pure false else moveBelow root.id boundary
  let movedLast ← match (← get).root? with
    | some last => moveBelow last.id boundary
    | none => pure false
  if movedLast || movedLate then storeReserving (.above boundary)

/-- Relocates `moves`, the leftmost of which starts at `leftmost`. First they leave all blocks from
there on, then, once the records say so, they and the root return to the lowest holes. -/
def runPass (leftmost : Nat) (moves : List Chunk) : Action (Volume δ κ) Unit := do
  onEngine Engine.sync
  let oldStop := (← get).engine.occupancy.stop
  let evacuation := Reserved.between leftmost oldStop
  let evacuated ← moves.mapM fun c => return (← move c.id evacuation).getD c
  storeReserving evacuation
  onEngine Engine.sync
  let root? := (← get).root?
  let newStop := (← get).engine.occupancy.stop
  let inside := root?.all (·.block.toNat < leftmost)
  let returned ← (evacuated.filter (oldStop ≤ ·.block.toNat)).mapM
    (move ·.id (.between oldStop newStop))
  if !inside || returned.any Option.isSome then
    if let some root := root? then returnRoot root inside oldStop newStop
  onEngine do
    discard (Engine.shrink 0)
    Engine.sync

/-- One compaction pass over at most `passBytes` bytes of chunks; `false` if none qualifies. -/
def compact (passBytes : Nat) : Action (Volume δ κ) Bool := do
  let v ← get
  let first := (← v.engine.occupancy.firstGapPos) / blockSize
  match ← Compaction.choose v.engine.occupancy v.chunks first passBytes with
  | [] => return false
  | c :: moves =>
    runPass c.block.toNat (c :: moves)
    return true

end BlockStore.Volume
