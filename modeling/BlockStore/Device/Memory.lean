import BlockStore.Device

namespace BlockStore.Device

/-- A file held in memory. -/
structure Memory where
  bytes : ByteArray := .empty
  sealed : Bool := false
  /-- The content at each sync, oldest first, if syncs are to be remembered. -/
  synced : Option (Array ByteArray) := none

namespace Memory

def read (pos len : Nat) : Action Memory ByteArray := do
  let m ← get
  let stop ← word64 (pos + len)
  if m.bytes.size < stop then .refuse (.device (.pastEnd pos stop m.bytes.size))
  else return Bytes.slice m.bytes pos len

def write (pos : Nat) (data : ByteArray) : Action Memory Unit := do
  if (← get).sealed then .refuse .readOnly
  let stop ← word64 (pos + data.size)
  Bytes.room stop
  modify fun m => { m with bytes := Bytes.overwrite (Bytes.grow m.bytes stop) pos data }

def sync : Action Memory Unit :=
  modify fun m => { m with synced := m.synced.map (·.push m.bytes) }

/-- A size beyond the end changes nothing. -/
def truncate (size : Nat) : Action Memory Unit := do
  if (← get).sealed then .refuse .readOnly
  modify fun m => { m with bytes := m.bytes.extract 0 size }

instance : Device Memory where
  read := read
  write := write
  sync := sync
  truncate := truncate
  size m := m.bytes.size
  readOnly m := m.sealed

end Memory

end BlockStore.Device
