namespace BlockStore

def blockSize : Nat := 4096

/-- Blocks at the start of a file that hold the copies of its superblock. -/
def headerBlocks : Nat := 2

def headerBytes : Nat := headerBlocks * blockSize

/-- The block number of a chunk that has no place in the file. -/
def unsaved : UInt64 := 0xFFFFFFFFFFFFFFFF

def softwareVersion : String := "0.1.0"

def blocksCovering (bytes size : Nat) : Nat := (bytes + size - 1) / size

end BlockStore
