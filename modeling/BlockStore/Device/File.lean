import BlockStore.Device.Disk
import BlockStore.Device.Memory

namespace BlockStore.Device

inductive File
  | memory (m : Memory)
  | disk (d : Disk)

namespace File

variable {α : Type}

def run (onMemory : Action Memory α) (onDisk : Action Disk α) : Action File α
  | .memory m => let (r, m) := onMemory m; (r, .memory m)
  | .disk d => let (r, d) := onDisk d; (r, .disk d)

def content : File → Sparse
  | .memory m => .ofBytes m.bytes
  | .disk d => d.content

def bytes : File → ByteArray
  | .memory m => m.bytes
  | .disk d => d.content.toBytes

/-- Changes the content without the knowledge of whoever has the file open. -/
def edit (f : Sparse → Sparse) : File → File
  | .memory m => .memory { m with bytes := (f (.ofBytes m.bytes)).toBytes }
  | .disk d => .disk { d with content := f d.content }

instance : Device File where
  read pos len := run (Memory.read pos len) (Disk.read pos len)
  write pos data := run (Memory.write pos data) (Disk.write pos data)
  sync := run Memory.sync Disk.sync
  truncate size := run (Memory.truncate size) (Disk.truncate size)
  size
    | .memory m => Device.size m
    | .disk d => Device.size d
  readOnly
    | .memory m => Device.readOnly m
    | .disk d => Device.readOnly d

end File

end BlockStore.Device
