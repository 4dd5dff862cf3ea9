import BlockStore.Bytes
import BlockStore.Checksum
import BlockStore.Error
import BlockStore.LittleEndian

namespace BlockStore.Frame

open LittleEndian Checksum

/-- The record in front of a payload. -/
structure Head where
  id : UInt32
  len : UInt32
  block : UInt64
  version : UInt64
  next : UInt64
  payload : UInt32
  deriving DecidableEq

/-- The record in the last bytes of the last block. -/
structure Foot where
  id : UInt32
  len : UInt32
  block : UInt64
  version : UInt64
  deriving DecidableEq

def headMagic : List UInt8 := [67, 72, 78, 75]

def footMagic : List UInt8 := [67, 69, 78, 68]

def format : Nat := 1

def checksum (bytes : List UInt8) : List UInt8 := encode 4 (crc32 bytes).toNat

def Head.ofChunk (c : Chunk) (payload : UInt32) : Head :=
  ⟨c.id, c.len, c.block, c.version, c.next, payload⟩

def Foot.ofChunk (c : Chunk) : Foot := ⟨c.id, c.len, c.block, c.version⟩

def Head.body (h : Head) : List UInt8 :=
  headMagic ++ encode 2 format ++ encode 2 0 ++ encode 4 h.id.toNat ++ encode 4 h.len.toNat ++
    encode 8 h.block.toNat ++ encode 8 h.version.toNat ++ encode 8 h.next.toNat ++
    encode 4 h.payload.toNat

def Head.encode (h : Head) : List UInt8 := h.body ++ checksum h.body

def Foot.body (f : Foot) : List UInt8 :=
  LittleEndian.encode 4 f.id.toNat ++ LittleEndian.encode 4 f.len.toNat ++
    LittleEndian.encode 8 f.block.toNat ++ LittleEndian.encode 8 f.version.toNat

def Foot.encode (f : Foot) : List UInt8 := f.body ++ checksum f.body ++ footMagic

theorem length_checksum (bytes : List UInt8) : (checksum bytes).length = 4 := length_encode ..

theorem Head.length_encode (h : Head) : h.encode.length = Chunk.headSize := by
  simp [Head.encode, Head.body, headMagic, length_checksum, LittleEndian.length_encode, Chunk.headSize]

theorem Foot.length_encode (f : Foot) : f.encode.length = Chunk.footSize := by
  simp [Foot.encode, Foot.body, footMagic, length_checksum, LittleEndian.length_encode, Chunk.footSize]

def Head.parse (raw : List UInt8) : Except Damage Head := do
  if raw.take 4 ≠ headMagic then throw (.headMagic (raw.take 4))
  if field raw 4 2 ≠ format then throw (.headFormat (field raw 4 2))
  let stored := (field raw 44 4).toUInt32
  let computed := crc32 (raw.take 44)
  if stored ≠ computed then throw (.headChecksum stored computed)
  return {
    id := (field raw 8 4).toUInt32
    len := (field raw 12 4).toUInt32
    block := (field raw 16 8).toUInt64
    version := (field raw 24 8).toUInt64
    next := (field raw 32 8).toUInt64
    payload := (field raw 40 4).toUInt32 }

def Foot.parse (raw : List UInt8) : Except Damage Foot := do
  if raw.drop 28 ≠ footMagic then throw (.footMagic (raw.drop 28))
  if (field raw 24 4).toUInt32 ≠ crc32 (raw.take 24) then throw .footChecksum
  return {
    id := (field raw 0 4).toUInt32
    len := (field raw 4 4).toUInt32
    block := (field raw 8 8).toUInt64
    version := (field raw 16 8).toUInt64 }

def readHead (buf : ByteArray) : Except Damage Head :=
  if buf.size < Chunk.headSize then throw (.headCut buf.size)
  else Head.parse (Bytes.toList (Bytes.slice buf 0 Chunk.headSize))

def readFoot (buf : ByteArray) : Except Damage Foot :=
  if buf.size < Chunk.footSize then throw (.footCut buf.size)
  else Foot.parse (Bytes.toList (Bytes.slice buf (buf.size - Chunk.footSize) Chunk.footSize))

def writeHead (buf : ByteArray) (h : Head) : Checked ByteArray :=
  if buf.size < Chunk.headSize then throw .outOfBounds
  else return Bytes.overwrite buf 0 (Bytes.ofList h.encode)

def writeFoot (buf : ByteArray) (f : Foot) : Checked ByteArray :=
  if buf.size < Chunk.footSize then throw .outOfBounds
  else return Bytes.overwrite buf (buf.size - Chunk.footSize) (Bytes.ofList f.encode)

/-- Puts head and foot of `c` around the bytes that `buf` holds between them. -/
def write (buf : ByteArray) (c : Chunk) (payload : UInt32) : Checked ByteArray := do
  writeFoot (← writeHead buf (.ofChunk c payload)) (.ofChunk c)

/-- A zeroed run of `c.len` blocks that holds `payload` in the frame of `c`. -/
def around (c : Chunk) (payload : ByteArray) : Checked ByteArray := do
  if c.byteLen < Chunk.headSize + payload.size then throw .outOfBounds
  write (Bytes.overwrite (Bytes.zeros c.byteLen) Chunk.headSize payload) c payload.size.toUInt32

def payloadSize (buf : ByteArray) : Except Damage UInt32 := do
  let head ← readHead buf
  if buf.size < Chunk.headSize + head.payload.toNat + Chunk.footSize then
    throw (.payloadTooLong head.payload.toNat buf.size)
  return head.payload

def payload (buf : ByteArray) (h : Head) : ByteArray :=
  Bytes.slice buf Chunk.headSize h.payload.toNat

def Head.isOf (h : Head) (c : Chunk) : Bool := h.id = c.id ∧ h.len = c.len ∧ h.block = c.block

def Foot.isOf (f : Foot) (c : Chunk) : Bool := f.id = c.id ∧ f.len = c.len ∧ f.block = c.block

instance : MonadLift (Except Damage) (Except Failure) := ⟨Except.mapError (.error ∘ .corruption)⟩

/-- The head of `buf`, if head and foot are sound, agree, and are those of `c`. -/
def verify (buf : ByteArray) (c : Chunk) : Except Failure Head := do
  let head ← readHead buf
  let foot ← readFoot buf
  unless head.isOf c do
    discard (c.describe : Checked String)
    throw (.error (.corruption (.headMismatch head.id head.block head.len c)))
  unless foot.isOf c ∧ foot.version = head.version do
    discard (c.describe : Checked String)
    throw (.error (.corruption (.footMismatch foot.id foot.block foot.len c)))
  discard (payloadSize buf : Except Damage UInt32)
  return head

end BlockStore.Frame
