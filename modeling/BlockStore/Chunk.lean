import BlockStore.Fault
import BlockStore.Geometry

namespace BlockStore

/-- A run of `len` blocks from `block` on that holds one payload, as the catalog knows it. -/
structure Chunk where
  id : UInt32
  block : UInt64 := unsaved
  len : UInt32 := 0
  version : UInt64 := 0
  size : UInt64 := 0
  liveSize : UInt64 := 0
  /-- Where the next chunk of the same length was expected to go. -/
  next : UInt64 := 0
  priority : UInt32 := 0
  deriving DecidableEq

namespace Chunk

/-- Bytes in front of a payload. -/
def headSize : Nat := 48

/-- Bytes at the end of the last block. -/
def footSize : Nat := 32

/-- Blocks for a payload of `n` bytes between head and foot, counted modulo `2 ^ 32`. -/
def blocksHolding (n : Nat) : Checked UInt32 := do
  return (blocksCovering (← word64 (headSize + n + footSize)) blockSize).toUInt32

def saved (c : Chunk) : Bool := c.block != unsaved

def fillRate (c : Chunk) : Checked UInt32 := do
  if c.liveSize = 0 then return 0
  if c.size ≤ c.liveSize then return 100
  return (1 + (← word64 (c.liveSize.toNat * 99)) / c.size.toNat).toUInt32

def start (c : Chunk) : Checked Nat := word64 (c.block.toNat * blockSize)

def byteLen (c : Chunk) : Nat := c.len.toNat * blockSize

/-- The first block after the chunk. -/
def stop (c : Chunk) : Checked Nat := word64 (c.block.toNat + c.len.toNat)

def overlaps (c d : Chunk) : Checked Bool := do
  if !c.saved || !d.saved then return false
  if (← d.stop) ≤ c.block.toNat then return false
  return d.block.toNat < (← c.stop)

def label (c : Chunk) : String :=
  if c.saved then
    s!"chunk {c.id} @ {c.block}..{c.block.toNat + c.len.toNat} (v{c.version}, next {c.next})"
  else s!"chunk {c.id} (unsaved, v{c.version})"

def describe (c : Chunk) : Checked String := do
  if c.saved then discard c.stop
  return c.label

end Chunk

end BlockStore
