import BlockStore.Image
import BlockStore.Roster

namespace BlockStore

/-- The records of a store. -/
structure Catalog where
  data : Roster := .empty
  /-- The chunk that holds the image stored last. -/
  root : Option Chunk := none
  /-- Removed chunks whose blocks the stored image still refers to. -/
  removed : List Chunk := []
  nextId : UInt32 := 1
  version : UInt64 := 0
  dirty : Bool := false
  deriving DecidableEq

namespace Catalog

def ofImage (i : Image) (root : Chunk) : Catalog where
  data := .ofList i.chunks
  root := some root
  nextId := i.nextId
  version := i.version

def takeId (c : Catalog) : Checked (UInt32 × Catalog) := do
  let next ← word32 (c.nextId.toNat + 1)
  return (c.nextId, { c with nextId := next.toUInt32 })

def nextVersion (c : Catalog) : Checked UInt64 := do
  return (← word64 (c.version.toNat + 1)).toUInt64

def find? (c : Catalog) (id : UInt32) : Option Chunk :=
  (c.data.find? id).or (c.root.filter (·.id = id))

def chunks (c : Catalog) : List Chunk := c.data.chunks ++ c.root.toList

def removedBlocks (c : Catalog) : Nat := c.removed.foldl (fun n d => n + d.len.toNat) 0

end Catalog

end BlockStore
