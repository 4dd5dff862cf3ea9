import BlockStore.Error
import BlockStore.LittleEndian

namespace BlockStore

open LittleEndian

/-- The records of a catalog as the payload of a root keeps them. -/
structure Image where
  version : UInt64
  nextId : UInt32
  chunks : List Chunk
  deriving DecidableEq

namespace Image

def entry (c : Chunk) : List UInt8 :=
  encode 4 c.id.toNat ++ encode 8 c.block.toNat ++ encode 4 c.len.toNat ++
    encode 8 c.version.toNat ++ encode 8 c.size.toNat ++ encode 8 c.liveSize.toNat ++
    encode 8 c.next.toNat

def entrySize : Nat := 48

theorem length_entry (c : Chunk) : (entry c).length = entrySize := by
  simp [entry, length_encode, entrySize]

def headSize : Nat := 20

def toBytes (i : Image) : List UInt8 :=
  encode 8 i.version.toNat ++ encode 4 i.nextId.toNat ++ encode 8 i.chunks.length ++
    i.chunks.flatMap entry

def readEntry (raw : List UInt8) : Chunk where
  id := (field raw 0 4).toUInt32
  block := (field raw 4 8).toUInt64
  len := (field raw 12 4).toUInt32
  version := (field raw 16 8).toUInt64
  size := (field raw 24 8).toUInt64
  liveSize := (field raw 32 8).toUInt64
  next := (field raw 40 8).toUInt64

/-- The first `n` entries of `raw`, if it has so many. -/
def readEntries : Nat → List UInt8 → Option (List Chunk)
  | 0, _ => some []
  | n + 1, raw =>
    let first := raw.take entrySize
    if first.length < entrySize then none
    else (readEntry first :: ·) <$> readEntries n (raw.drop entrySize)

/-- Bytes behind the last entry are ignored. -/
def ofBytes? (raw : List UInt8) : Option Image := do
  guard (headSize ≤ (raw.take headSize).length)
  return {
    version := (field raw 0 8).toUInt64
    nextId := (field raw 8 4).toUInt32
    chunks := ← readEntries (field raw 12 8) (raw.drop headSize) }

def read (raw : List UInt8) : Except StoreError Image :=
  match ofBytes? raw with
  | some i => .ok i
  | none => .error .imageCut

end Image

end BlockStore
