import BlockStore.Device
import BlockStore.Sparse

namespace BlockStore.Device

/-- An open file of the operating system. Its size is counted here, apart from its length, and
follows the calls made through this value. -/
structure Disk where
  content : Sparse
  size : Nat
  sealed : Bool
  /-- The length that the file cannot exceed. Where the file system sets it, that is as many blocks of
  4096 bytes as 32 bits can number. -/
  limit : Nat := (UInt32.size - 1) * 4096
  /-- Positions in a file are signed words. -/
  limit_lt : limit < Bytes.limit := by decide

namespace Disk

def holding (content : Sparse) (readOnly : Bool) : Disk :=
  { content, size := content.length, sealed := readOnly }

/-- A directory opened to be read. It counts as one block. -/
def directory : Disk := { content := {}, size := blockSize, sealed := true }

/-- Opens the file that holds `content`; a missing one is created, unless it is only to be read. -/
def openFile (content : Option Sparse) (readOnly : Bool) : Except StoreError Disk :=
  match content with
  | some content => .ok (holding content readOnly)
  | none => if readOnly then .error (.device .missing) else .ok (holding {} false)

def read (pos len : Nat) : Action Disk ByteArray := do
  let d ← get
  if d.limit < pos then .refuse (.device .badOffset)
  Bytes.room len
  if len = 0 then return .empty
  if d.content.length < pos + len then .refuse (.device .incomplete)
  else return d.content.slice pos len

/-- An empty write leaves the content alone and still counts its position. -/
def write (pos : Nat) (data : ByteArray) : Action Disk Unit := do
  let d ← get
  if d.sealed then .refuse .readOnly
  if d.limit < pos then .refuse (.device .badOffset)
  let stop := pos + data.size
  if 0 < data.size then
    if d.limit < stop then .refuse (.device .fileTooLarge)
    modify fun d => { d with content := d.content.overwrite pos data }
  modify fun d => { d with size := max d.size stop }

def sync : Action Disk Unit := pure ()

/-- Sizes that do not fit a signed word do not even reach the file. -/
def truncate (size : Nat) : Action Disk Unit := do
  let d ← get
  if d.sealed then .refuse .readOnly
  if Bytes.limit ≤ size then .refuse (.device .sizeRange)
  if d.limit < size then .refuse (.device .fileTooLarge)
  modify fun d => { d with content := d.content.resize size, size := size }

instance : Device Disk where
  read := read
  write := write
  sync := sync
  truncate := truncate
  size d := d.size
  readOnly d := d.sealed

end Disk

end BlockStore.Device
