import BlockStore.BufferPool
import BlockStore.Device
import BlockStore.Frame
import BlockStore.Occupancy
import BlockStore.Settings

namespace BlockStore

/-- The calls that succeeded, and the bytes they moved. -/
structure Traffic where
  reads : Nat := 0
  readBytes : Nat := 0
  writes : Nat := 0
  writtenBytes : Nat := 0

/-- A device and the knowledge of which of its blocks are in use. -/
structure Engine (δ : Type) where
  device : δ
  settings : Settings
  occupancy : Occupancy
  /-- What allocations for new chunks have to leave alone, on behalf of a running compaction. -/
  reserved : Reserved
  /-- Whether freed blocks below the end may be allocated again. -/
  reuse : Bool
  pool : BufferPool
  traffic : Traffic := {}

namespace Engine

variable {δ α : Type}

def create (device : δ) (settings : Settings) : Checked (Engine δ) := do
  return {
    device
    settings
    occupancy := .create headerBlocks blockSize
    reserved := .nothing
    reuse := settings.reuseSpace
    pool := ← BufferPool.create settings.poolSize }

def onDevice (act : Action δ α) : Action (Engine δ) α :=
  .within device (fun e d => { e with device := d }) act

def mark (pos length : Nat) : Action (Engine δ) Unit := do
  let o ← (← get).occupancy.mark pos length
  modify ({ · with occupancy := o })

def free (pos length : Nat) : Action (Engine δ) Unit := do
  let o ← (← get).occupancy.free pos length
  modify ({ · with occupancy := o })

def clear : Action (Engine δ) Unit := modify fun e => { e with occupancy := e.occupancy.clear }

def allocate (length : Nat) (r : Reserved) : Action (Engine δ) Nat := do
  let (pos, o) ← (← get).occupancy.allocate length r
  modify ({ · with occupancy := o })
  return pos

def markChunk (c : Chunk) : Action (Engine δ) Unit := do mark (← c.start) c.byteLen

def freeChunk (c : Chunk) : Action (Engine δ) Unit := do free (← c.start) c.byteLen

def acquire (len : Nat) : Action (Engine δ) ByteArray := do
  let (buf, pool) ← (← get).pool.acquire len
  modify ({ · with pool })
  return buf

def release (buf : ByteArray) : Action (Engine δ) Unit :=
  modify fun e => { e with pool := e.pool.release buf }

variable [Device δ]

def size (e : Engine δ) : Nat := Device.size e.device

def readOnly (e : Engine δ) : Bool := Device.readOnly e.device

def read (pos len : Nat) : Action (Engine δ) ByteArray := do
  let data ← onDevice (Device.read pos len)
  modify fun e => { e with traffic := { e.traffic with
    reads := e.traffic.reads + 1
    readBytes := e.traffic.readBytes + len } }
  return data

def write (pos : Nat) (data : ByteArray) : Action (Engine δ) Unit := do
  onDevice (Device.write pos data)
  modify fun e => { e with traffic := { e.traffic with
    writes := e.traffic.writes + 1
    writtenBytes := e.traffic.writtenBytes + data.size } }

def sync : Action (Engine δ) Unit := onDevice Device.sync

/-- Frame head and bytes of a chunk as they stand on the device. -/
def load (c : Chunk) : Action (Engine δ) (Frame.Head × ByteArray) := do
  let buf ← read (← c.start) c.byteLen
  return (← Frame.verify buf c, buf)

/-- Where new chunks have to stay above while space is not reused. -/
def appendFrom (e : Engine δ) : Nat := max (blocksCovering e.size blockSize) e.occupancy.stop

/-- What a new chunk must not be placed on. -/
def heldBack (e : Engine δ) : Reserved :=
  .between e.reserved.low <| match e.reserved.high.filter (0 < ·) with
    | some high => high
    | none => if e.reuse then 0 else e.appendFrom

def checkPlaced (c : Chunk) : Action (Engine δ) Unit := do
  let o := (← get).occupancy
  unless ← o.isUsed (← c.start) c.byteLen do
    discard (c.describe : Checked String)
    .refuse (.breach (.notMarked c))
  if o.stop < (← c.stop) then .refuse (.breach (.pastBoundary c o.stop))

/-- Finds room for a chunk and puts its frame around the payload in `buf`. -/
def allocateFor (c : Chunk) (buf : ByteArray) : Action (Engine δ) (Chunk × ByteArray) := do
  let e ← get
  if e.readOnly then .refuse .readOnly
  if buf.size ≠ c.byteLen ∨ c.byteLen = 0 then .refuse (.breach (.bufferMismatch buf.size c.len c.id))
  let payload ← (Frame.payloadSize buf : Except Failure UInt32)
  let held := e.heldBack
  let pos ← allocate c.byteLen held
  let next ← if 0 < held.low ∨ held.high = some held.low then
      (← get).occupancy.preview c.len.toNat .nothing
    else pure 0
  let placed := { c with block := (pos / blockSize).toUInt64, next := next.toUInt64 }
  let framed ← Frame.write buf placed payload
  checkPlaced placed
  return (placed, framed)

/-- Writes a framed chunk to its blocks; gives the blocks back if that fails. -/
def writeChunk (c : Chunk) (buf : ByteArray) : Action (Engine δ) Unit := do
  match ← (write (← c.start) buf).attempt with
  | .ok () => return
  | .error e =>
    freeChunk c
    .refuse e

/-- Stores a payload as a new chunk. -/
def place (c : Chunk) (payload : ByteArray) : Action (Engine δ) Chunk := do
  let c := { c with
    len := ← Chunk.blocksHolding payload.size
    size := payload.size.toUInt64
    liveSize := payload.size.toUInt64 }
  if UInt32.size ≤ payload.size then .refuse (.breach (.payloadTooLarge payload.size))
  let buf ← acquire c.byteLen
  if c.byteLen < Chunk.headSize + payload.size then throw (.fault .outOfBounds)
  let framed ← Frame.write (Bytes.overwrite buf Chunk.headSize payload) c payload.size.toUInt32
  let placed ← Action.attempt do
    let (c, framed) ← allocateFor c framed
    writeChunk c framed
    return c
  release framed
  match placed with
  | .ok c => return c
  | .error e => .refuse e

/-- Copies a chunk to free blocks outside `r`. The blocks it was on stay in use. -/
def copy (c : Chunk) (r : Reserved) : Action (Engine δ) Chunk := do
  let (head, source) ← load c
  let buf ← acquire source.size
  let homeless := { c with block := unsaved, next := 0 }
  let framed ← Frame.write (Bytes.overwrite buf 0 source) homeless head.payload
  let pos ← allocate c.byteLen r
  let moved := { homeless with block := (pos / blockSize).toUInt64 }
  if r.high.isNone && c.block < moved.block then throw (.fault .assertion)
  let framed ← Frame.write framed moved head.payload
  let written ← (write pos framed).attempt
  release framed
  match written with
  | .ok () => return moved
  | .error e =>
    free pos c.byteLen
    .refuse e

/-- Cuts the device behind the last block in use, if that saves at least `minPercent` of it. -/
def shrink (minPercent : Nat) : Action (Engine δ) Bool := do
  let e ← get
  if e.readOnly then return false
  let stop ← e.occupancy.stopPos
  if e.size ≤ stop then return false
  if 0 < minPercent ∧ e.size - stop < blockSize then return false
  if 100 - (← word64 (stop * 100)) / e.size < minPercent then return false
  sync
  onDevice (Device.truncate stop)
  return true

end Engine

end BlockStore
