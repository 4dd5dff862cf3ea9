import BlockStore.Compaction.Pass
import BlockStore.Device.Memory
import BlockStore.Device.Traced
import BlockStore.Roster

namespace BlockStore.Keeper

open Device

/-- How a scripted keeper departs from one that keeps and stores everything. -/
structure Script where
  /-- Chunks that are kept but not shown. -/
  vanished : List UInt32 := []
  failRegister : Option UInt32 := none
  /-- The number of the store that fails. -/
  failStore : Option Nat := none
  /-- Chunks that the first store removes without giving back their blocks. -/
  dropped : List UInt32 := []
  /-- Lengths of the chunks that each store adds. -/
  added : List Nat := []
  /-- Lengths of the roots that the stores write, in turn; the last one repeats. -/
  roots : List Nat := []

inductive Event
  | registered (c : Chunk)
  | stored (count stop : Nat)
  | added (c : Chunk)
  | rooted (c : Chunk)

/-- Records that are kept in memory only, and changed as a script says. -/
structure Scripted where
  script : Script := {}
  data : Roster := .empty
  root : Option Chunk := none
  /-- The id of the next chunk that a store makes. -/
  nextId : Nat := 100
  /-- The stores since the script was set. -/
  stores : Nat := 0

abbrev Bench := Volume (Traced Memory Event) Scripted

namespace Bench

def note (e : Event) : Action Bench Unit := Volume.onEngine (Engine.onDevice (Traced.note e))

def record (f : Scripted → Scripted) : Action Bench Unit :=
  modify fun v => { v with records := f v.records }

def find? (v : Bench) (id : UInt32) : Option Chunk :=
  (v.records.root.filter (·.id = id)).or (v.records.data.find? id)

def adopt (c : Chunk) : Action Bench Unit := record fun s => { s with data := s.data.insert c }

/-- Finds room for a framed chunk and writes it there. The record comes back as far as it got. -/
def settle (c : Chunk) (buf : ByteArray) : Action Bench (Chunk × Except StoreError ByteArray) := do
  match ← (Volume.onEngine (Engine.allocateFor c buf)).attempt with
  | .error e => return (c, .error e)
  | .ok (placed, framed) =>
    let written ← (Volume.onEngine do Engine.write (← placed.start) framed).attempt
    return (placed, written.map fun _ => framed)

/-- Settles a chunk and keeps it. -/
def allocate (c : Chunk) (buf : ByteArray) : Action Bench (Chunk × Except StoreError ByteArray) := do
  let (placed, settled) ← settle c buf
  if settled matches .ok _ then adopt placed
  return (placed, settled)

def create (len : Nat) : Action Bench Chunk := do
  let id := (← get).records.nextId
  record ({ · with nextId := id + 1 })
  let c : Chunk := { id := id.toUInt32, len := len.toUInt32, version := 1 }
  match ← settle c (← Frame.around c "allocated".toUTF8) with
  | (placed, .ok _) => return placed
  | (_, .error e) => .refuse e

def register (c : Chunk) : Action Bench Unit := do
  note (.registered c)
  let s := (← get).records
  if s.script.failRegister = some c.id then .refuse (.corruption .planned)
  if s.root.any (·.id = c.id) then record ({ · with root := some c }) else adopt c

def store : Action Bench Unit := do
  record fun s => { s with stores := s.stores + 1 }
  let v ← get
  let s := v.records
  note (.stored s.stores v.engine.occupancy.stop)
  if s.script.failStore = some s.stores then .refuse (.device .plannedStore)
  if s.stores = 1 then record fun s => { s with data := s.script.dropped.foldl Roster.erase s.data }
  s.script.added.forM fun len => do
    let c ← create len
    note (.added c)
    adopt c
  if let some len := (s.script.roots.take s.stores).getLast? then
    let c ← create len
    note (.rooted c)
    Volume.onEngine Engine.sync
    record ({ · with root := some c })
    if let some old := s.root then Volume.onEngine (Engine.freeChunk old)

instance : Keeper (Traced Memory Event) Scripted where
  chunks v := v.records.data.chunks ++ v.records.root.toList
  chunk? v id := if id ∈ v.records.script.vanished then none else find? v id
  root? v := v.records.root
  register := register
  store := store

/-- Writes a framed chunk at its own place, marks its blocks and keeps it. -/
def put (c : Chunk) (payload : ByteArray) : Action Bench Unit := do
  let buf ← Frame.around c payload
  Volume.onEngine do
    Engine.write (← c.start) buf
    Engine.markChunk c
  adopt c

/-- Makes a data chunk the root; an unknown id leaves no root. -/
def setRoot (id : UInt32) : Action Bench Bool := do
  let c? := (← get).records.data.find? id
  record fun s => { s with root := c?, data := s.data.erase id }
  return c?.isSome

def forget (id : UInt32) : Action Bench Bool := do
  let c? := (← get).records.data.find? id
  record fun s => { s with data := s.data.erase id }
  return c?.isSome

/-- Forgets a data chunk and gives its blocks back. -/
def discardChunk (id : UInt32) : Action Bench Bool := do
  let c? := (← get).records.data.find? id
  record fun s => { s with data := s.data.erase id }
  if let some c := c? then Volume.onEngine (Engine.freeChunk c)
  return c?.isSome

def load? (id : UInt32) : Action Bench (Option (Frame.Head × ByteArray)) := do
  match find? (← get) id with
  | some c => some <$> Volume.onEngine (Engine.load c)
  | none => return none

/-- A compaction pass during which the keeper follows `script`. -/
def compact (script : Script) (passBytes : Nat) : Action Bench Bool := do
  record ({ · with script, stores := 0 })
  Volume.compact passBytes

end Bench

end BlockStore.Keeper
