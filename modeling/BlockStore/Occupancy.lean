import BlockStore.Bitmap
import BlockStore.Error
import BlockStore.Reserved

namespace BlockStore

/-- Which blocks of a file are in use. -/
structure Occupancy where
  headerBlocks : Nat
  blockSize : Nat
  used : Bitmap
  /-- For each of the last four allocations, newest first, whether it went to the end of the file
  although much more room was free below. -/
  wasteful : List Bool
  deriving DecidableEq

namespace Occupancy

def create (headerBlocks blockSize : Nat) : Occupancy :=
  ⟨headerBlocks, blockSize, Bitmap.insertRange {} 0 headerBlocks, []⟩

def clear (o : Occupancy) : Occupancy := create o.headerBlocks o.blockSize

def blockOf (o : Occupancy) (pos : Nat) : Checked Nat :=
  if o.blockSize = 0 then .error .zeroDivisor else .ok (pos / o.blockSize)

def blocksIn (o : Occupancy) (length : Nat) : Checked Nat :=
  if o.blockSize = 0 then .error .zeroDivisor else .ok (blocksCovering length o.blockSize)

def posOf (o : Occupancy) (block : Nat) : Checked Nat := word64 (block * o.blockSize)

/-- One more than the last block in use. -/
def stop (o : Occupancy) : Nat := o.used.length

def usedCount (o : Occupancy) : Nat := o.used.card

def firstGapPos (o : Occupancy) : Checked Nat := o.posOf (o.used.nextGap 0)

def stopPos (o : Occupancy) : Checked Nat := o.posOf o.stop

def isUsed (o : Occupancy) (pos length : Nat) : Checked Bool := do
  let start ← o.blockOf pos
  let stop ← word64 (start + (← o.blocksIn length))
  return stop ≤ o.used.nextGap start

def isFree (o : Occupancy) (pos length : Nat) : Checked Bool := do
  let start ← o.blockOf pos
  let blocks ← o.blocksIn length
  match o.used.next? start with
  | some used => return (← word64 (start + blocks)) ≤ used
  | none => return true

/-- Takes a range that is wholly free. -/
def mark (o : Occupancy) (pos length : Nat) : Except Failure Occupancy := do
  let start ← o.blockOf pos
  let stop ← word64 (start + (← o.blocksIn length))
  if ← o.isFree pos length then
    return { o with used := o.used.insertRange start stop }
  else throw (.error (.corruption (.doubleMark start stop)))

/-- Gives back a range that is wholly used and not of the header. -/
def free (o : Occupancy) (pos length : Nat) : Except Failure Occupancy := do
  let start ← o.blockOf pos
  let blocks ← o.blocksIn length
  if start < o.headerBlocks then throw (.error (.corruption (.headerFree start)))
  let stop ← word64 (start + blocks)
  if o.used.nextGap start < stop then throw (.error (.corruption (.doubleFree start stop)))
  return { o with used := o.used.eraseRange start stop }

/-- Where an allocation would go. -/
structure Fit where
  start : Nat
  atEnd : Bool
  /-- Free blocks of the holes passed over. -/
  skipped : Nat

/-- The first hole from `cursor` on that takes `blocks` blocks outside the reserved ones. Under a
reservation without end only the first hole that is large enough is tried, then the end. -/
def firstFit (o : Occupancy) (blocks : Nat) (r : Reserved) (cursor skipped : Nat) : Checked Fit :=
  let start := o.used.nextGap cursor
  if UInt64.size ≤ start + 1 then .error .overflow
  else
    let stop? := o.used.next? (start + 1)
    match _hs : stop?.filter (· - start < blocks) with
    | some stop => firstFit o blocks r stop (skipped + (stop - start))
    | none =>
      match _hm : r.meets start blocks with
      | .error f => .error f
      | .ok false => .ok ⟨start, stop?.isNone, skipped⟩
      | .ok true =>
        match _hh : r.high with
        | some high => firstFit o blocks r high skipped
        | none => .ok ⟨o.stop, true, skipped⟩
  termination_by max (64 * o.used.words.size) (r.high.getD 0) + 1 - cursor
  decreasing_by
    · have := Bitmap.next?_bounds (Option.filter_eq_some_iff.1 _hs).1
      have := o.used.le_nextGap cursor
      omega
    · have := Reserved.lt_of_meets _hm _hh
      have := o.used.le_nextGap cursor
      simp only [_hh, Option.getD_some]
      omega

/-- The first block that `allocate` would take. -/
def preview (o : Occupancy) (blocks : Nat) (r : Reserved) : Checked Nat :=
  Fit.start <$> o.firstFit blocks r 0 0

/-- Takes free blocks for `length` bytes; returns the position of the first. -/
def allocate (o : Occupancy) (length : Nat) (r : Reserved) : Checked (Nat × Occupancy) := do
  let blocks ← o.blocksIn length
  let fit ← o.firstFit blocks r 0 0
  let pos ← o.posOf fit.start
  unless ← o.isFree pos length do throw .assertion
  let wasteful ← if fit.atEnd then (decide <| · < fit.skipped) <$> word64 (4 * blocks) else pure false
  let stop ← word64 (fit.start + blocks)
  return (pos, { o with
    used := o.used.insertRange fit.start stop
    wasteful := (wasteful :: o.wasteful).take 4 })

def fragmented (o : Occupancy) : Bool := 1 < o.wasteful.countP id

/-- The share of used blocks behind the header, rounded up to a whole percentage, if
`vacated` of them were free and the boundary stayed where it is. -/
def fillRateWithout (o : Occupancy) (vacated : Nat) : Checked Nat := do
  let total := o.stop - o.headerBlocks
  let used := o.usedCount - (← word64 (o.headerBlocks + vacated))
  return if used = 0 ∨ total = 0 then 0 else (100 * used + total - 1) / total

def fillRate (o : Occupancy) : Checked Nat := o.fillRateWithout 0

/-- How much free room would be joined by moving the used run around `block` away, against what
has to be moved for it. -/
def gain (o : Occupancy) (block : Nat) : Nat :=
  if block ∈ o.used then
    let (runStart, below) := match o.used.prevGap? block with
      | some gap => (gap + 1, gap + 1 - ((o.used.prev? gap).map (· + 1)).getD 0)
      | none => (min o.headerBlocks block, 0)
    let runStop := o.used.nextGap block
    let above := ((o.used.next? runStop).map (· - runStop)).getD 0
    min ((below + above + 1) * 1000 / max (runStop - runStart) 1) (UInt32.size - 1)
  else 0

end Occupancy

end BlockStore
