import BlockStore.Action
import BlockStore.Bytes

namespace BlockStore

/-- A file as the engine uses it: bytes at positions, in calls that succeed or fail whole. -/
class Device (δ : Type) where
  read : Nat → Nat → Action δ ByteArray
  write : Nat → ByteArray → Action δ Unit
  sync : Action δ Unit
  /-- Cuts the file to a size. -/
  truncate : Nat → Action δ Unit
  size : δ → Nat
  readOnly : δ → Bool

end BlockStore
