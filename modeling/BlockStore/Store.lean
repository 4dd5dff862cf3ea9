import BlockStore.Catalog
import BlockStore.Compaction.Pass
import BlockStore.Superblock

namespace BlockStore

/-- Payloads by id in one file. Changes become durable with the next commit. -/
abbrev Store (δ : Type) := Volume δ Catalog

namespace Store

variable {δ : Type} [Device δ]

/-- Reads the catalog that the device holds and marks the blocks of its chunks; an empty device
becomes an empty store. -/
def recover : Action (Engine δ) Catalog := do
  let e ← get
  if e.size = 0 then
    if e.readOnly then .refuse .readOnly
    Engine.write 0 ({} : Superblock).toBytes
    Engine.sync
    return {}
  if e.size < headerBytes then .refuse (.corruption (.shortFile e.size))
  let s ← (Superblock.read (← Engine.read 0 headerBytes) : Except Failure Superblock)
  unless s.namesRoot do return {}
  let named : Chunk := { id := s.rootId, block := s.rootBlock, len := s.rootLen, version := s.version }
  let (head, buf) ← Engine.load named
  let root := { named with
    version := head.version
    next := head.next
    size := head.payload.toUInt64
    liveSize := head.payload.toUInt64 }
  let image ← (Image.read (Bytes.toList (Frame.payload buf head)) : Except Failure Image)
  if image.version ≠ s.version then .refuse (.corruption (.versionMismatch image.version s.version))
  Engine.markChunk root
  image.chunks.forM Engine.markChunk
  return .ofImage image root

/-- Opens the store on a device. If that fails, the device is left as the attempt made it. -/
def openOn (settings : Settings) (device : δ) : Except (Failure × δ) (Store δ) :=
  match settings.check with
  | .error e => .error (.error e, device)
  | .ok () =>
    match Engine.create device settings with
    | .error f => .error (.fault f, device)
    | .ok engine =>
      match recover engine with
      | (.ok records, engine) => .ok ⟨engine, records⟩
      | (.error f, engine) => .error (f, engine.device)

def guardWritable : Action (Store δ) Unit := do
  if (← get).engine.readOnly then .refuse .readOnly

def takeId : Action (Store δ) UInt32 := do
  let (id, records) ← (← get).records.takeId
  modify ({ · with records })
  return id

def write (payload : ByteArray) : Action (Store δ) Chunk := do
  guardWritable
  let id ← takeId
  let version ← (← get).records.nextVersion
  let c ← Volume.onEngine (Engine.place { id, version } payload)
  modify fun v => { v with records := { v.records with data := v.records.data.insert c, dirty := true } }
  return c

def read (id : UInt32) : Action (Store δ) ByteArray := do
  match (← get).records.find? id with
  | none => .refuse (.chunkNotFound id)
  | some c =>
    let (head, buf) ← Volume.onEngine (Engine.load c)
    return Frame.payload buf head

/-- The blocks of a removed chunk stay in use until the next commit. -/
def remove (id : UInt32) : Action (Store δ) Unit := do
  guardWritable
  match (← get).records.data.find? id with
  | none => .refuse (.chunkNotFound id)
  | some c =>
    modify fun v => { v with records := { v.records with
      data := v.records.data.erase id
      removed := v.records.removed ++ [c]
      dirty := true } }

/-- Stores an image of the catalog as the new root, points the superblock at it and gives back what
only the image before it referred to. -/
def commit : Action (Store δ) UInt64 := do
  guardWritable
  let id ← takeId
  let records := (← get).records
  let version ← records.nextVersion
  let image : Image := ⟨version, records.nextId, records.data.chunks⟩
  let root ← Volume.onEngine do
    let root ← Engine.place { id, version } (Bytes.ofList image.toBytes)
    Engine.sync
    Engine.write 0 (Superblock.naming version root).toBytes
    Engine.sync
    return root
  modify ({ · with records := { records with root := some root, removed := [], version, dirty := false } })
  Volume.onEngine ((records.removed ++ records.root.toList).forM Engine.freeChunk)
  return version

/-- Takes note of a chunk that moved. The superblock follows the root. -/
def register (c : Chunk) : Action (Store δ) Unit := do
  let records := (← get).records
  if records.root.any (·.id = c.id) then
    modify ({ · with records := { records with root := some c } })
    Volume.onEngine do
      Engine.sync
      Engine.write 0 (Superblock.naming records.version c).toBytes
      Engine.sync
  else if (records.data.find? c.id).isSome then
    modify ({ · with records := { records with data := records.data.insert c, dirty := true } })

instance : Keeper δ Catalog where
  chunks v := v.records.chunks
  chunk? v := v.records.find?
  root? v := v.records.root
  register := register
  store := discard commit

/-- One compaction pass, if the fill rate would be below `target` without the removed chunks. -/
def compact (target passBytes : Nat) : Action (Store δ) Bool := do
  let v ← get
  if v.engine.readOnly || !v.engine.reuse then return false
  if target ≤ (← v.engine.occupancy.fillRateWithout v.records.removedBlocks) then return false
  unless v.records.removed.isEmpty do discard commit
  Volume.compact passBytes

/-- Compaction passes until one has nothing to do or, after `spare` passes, the time is up. -/
def compactAll (spare target passBytes : Nat) : Action (Store δ) Bool :=
  match spare with
  | 0 => compact target passBytes
  | spare + 1 => do
    if ← compact target passBytes then
      discard (compactAll spare target passBytes)
      return true
    else return false

/-- Compacts with the limits of the settings, if the fill rate is low or the file fragmented. -/
def maintain (spare : Nat) : Action (Store δ) Bool := do
  let e := (← get).engine
  if e.readOnly then return false
  if e.settings.compactBelow ≤ (← e.occupancy.fillRate) && !e.occupancy.fragmented then
    return false
  compactAll spare e.settings.compactBelow e.settings.passBytes

def close : Action (Store δ) Unit := do
  if (← get).engine.readOnly then return
  if (← get).records.dirty then discard commit
  Volume.onEngine do
    discard (Engine.shrink (← get).settings.shrinkFrom)
    Engine.sync

end Store

end BlockStore
