import BlockStore.Engine

namespace BlockStore

/-- An engine together with the records of whoever uses it. -/
structure Volume (δ κ : Type) where
  engine : Engine δ
  records : κ

/-- What a compaction asks of the one who keeps the records of the chunks. -/
class Keeper (δ κ : Type) where
  /-- All chunks, the root included. -/
  chunks : Volume δ κ → List Chunk
  chunk? : Volume δ κ → UInt32 → Option Chunk
  /-- The chunk that holds the stored records. -/
  root? : Volume δ κ → Option Chunk
  /-- Takes note of a chunk that moved. -/
  register : Chunk → Action (Volume δ κ) Unit
  /-- Makes the records durable. -/
  store : Action (Volume δ κ) Unit

namespace Volume

variable {δ κ α : Type}

def onEngine (act : Action (Engine δ) α) : Action (Volume δ κ) α :=
  .within engine (fun v e => { v with engine := e }) act

def chunks [Keeper δ κ] (v : Volume δ κ) : List Chunk := Keeper.chunks v

def chunk? [Keeper δ κ] (v : Volume δ κ) (id : UInt32) : Option Chunk := Keeper.chunk? v id

def root? [Keeper δ κ] (v : Volume δ κ) : Option Chunk := Keeper.root? v

def register [Keeper δ κ] (c : Chunk) : Action (Volume δ κ) Unit := Keeper.register c

def store [Keeper δ κ] : Action (Volume δ κ) Unit := Keeper.store

end Volume

end BlockStore
