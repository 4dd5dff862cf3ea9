namespace BlockStore.Checksum

/-- One step of the register of the reflected polynomial `0x04C11DB7`. -/
def shift (r : UInt32) : UInt32 :=
  if r &&& 1 = 1 then (r >>> 1) ^^^ 0xEDB88320 else r >>> 1

def absorb (r : UInt32) (b : UInt8) : UInt32 := Nat.repeat shift 8 (r ^^^ b.toUInt32)

/-- CRC-32: register and result are complemented. -/
def crc32 (bytes : List UInt8) : UInt32 := bytes.foldl absorb 0xFFFFFFFF ^^^ 0xFFFFFFFF

end BlockStore.Checksum
