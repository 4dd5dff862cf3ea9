import BlockStore.Chunk
import BlockStore.Device.Call

namespace BlockStore

/-- Why a device refused a call. -/
inductive DeviceError
  | pastEnd (start stop size : Nat)
  | incomplete
  | sizeRange
  | system (code : Nat) (text : String)
  | planned (kind : Device.Kind)
  | plannedStore
  deriving DecidableEq

namespace DeviceError

def missing : DeviceError := .system 2 "No such file or directory"

def notDirectory : DeviceError := .system 20 "Not a directory"

def isDirectory : DeviceError := .system 21 "Is a directory"

def badOffset : DeviceError := .system 22 "Invalid argument"

def fileTooLarge : DeviceError := .system 27 "File too large"

def nameTooLong : DeviceError := .system 36 "File name too long"

def message : DeviceError → String
  | .pastEnd start stop size => s!"read of {start}..{stop} beyond end of file ({size})"
  | .incomplete => "failed to fill whole buffer"
  | .sizeRange => "out of range integral type conversion attempted"
  | .system code text => s!"{text} (os error {code})"
  | .planned kind => s!"injected {kind.label} fault"
  | .plannedStore => "injected store fault"

end DeviceError

/-- What is wrong with stored bytes, or with what the occupancy was told about them. -/
inductive Damage
  | headCut (size : Nat)
  | headMagic (found : List UInt8)
  | headFormat (format : Nat)
  | headChecksum (stored computed : UInt32)
  | footCut (size : Nat)
  | footMagic (found : List UInt8)
  | footChecksum
  | payloadTooLong (payload size : Nat)
  | headMismatch (id : UInt32) (block : UInt64) (len : UInt32) (expected : Chunk)
  | footMismatch (id : UInt32) (block : UInt64) (len : UInt32) (expected : Chunk)
  | noSuperblock
  | shortFile (size : Nat)
  | versionMismatch (image superblock : UInt64)
  | doubleMark (start stop : Nat)
  | headerFree (block : Nat)
  | doubleFree (start stop : Nat)
  | planned
  deriving DecidableEq

namespace Damage

/-- Eight hexadecimal digits behind `0x`. -/
def hex (n : UInt32) : String :=
  let digits := Nat.toDigits 16 n.toNat
  "0x" ++ String.ofList (List.replicate (8 - digits.length) '0' ++ digits)

def listed (bytes : List UInt8) : String :=
  "[" ++ ", ".intercalate (bytes.map fun b => s!"{b.toNat}") ++ "]"

def message : Damage → String
  | .headCut size => s!"Chunk header truncated: expected {Chunk.headSize} bytes, got {size}"
  | .headMagic found => s!"Invalid chunk magic: expected CHNK, got {listed found}"
  | .headFormat format => s!"Unsupported chunk format: {format}"
  | .headChecksum stored computed =>
    s!"Chunk header checksum mismatch: stored {hex stored}, computed {hex computed}"
  | .footCut size => s!"Chunk footer truncated: expected {Chunk.footSize} bytes, got {size}"
  | .footMagic found => s!"Invalid chunk footer magic: expected CEND, got {listed found}"
  | .footChecksum => "Chunk footer checksum mismatch"
  | .payloadTooLong payload size => s!"Chunk payload of {payload} bytes does not fit in {size} bytes"
  | .headMismatch id block len expected =>
    s!"Chunk header (id {id}, block {block}, len {len}) does not match {expected.label}"
  | .footMismatch id block len expected =>
    s!"Chunk footer (id {id}, block {block}, len {len}) does not match {expected.label}"
  | .noSuperblock => "No valid store header found"
  | .shortFile size => s!"File of {size} bytes is shorter than the store header"
  | .versionMismatch image superblock =>
    s!"Root chunk holds version {image} but the store header names {superblock}"
  | .doubleMark start stop => s!"Double mark: blocks {start}..{stop} overlap used space"
  | .headerFree block => s!"Attempt to free header block {block}"
  | .doubleFree start stop => s!"Double free: blocks {start}..{stop} are not all used"
  | .planned => "injected register fault"

end Damage

/-- What a caller did that the allocator does not allow. -/
inductive Breach
  | bufferMismatch (bytes : Nat) (len id : UInt32)
  | notMarked (chunk : Chunk)
  | pastBoundary (chunk : Chunk) (boundary : Nat)
  | payloadTooLarge (bytes : Nat)
  deriving DecidableEq

def Breach.message : Breach → String
  | .bufferMismatch bytes len id => s!"Buffer of {bytes} bytes does not match {len} blocks of chunk {id}"
  | .notMarked chunk => s!"{chunk.label} is not marked used after allocation"
  | .pastBoundary chunk boundary => s!"{chunk.label} ends beyond the in-use boundary {boundary}"
  | .payloadTooLarge bytes => s!"Payload of {bytes} bytes exceeds the chunk format limit"

/-- A setting out of its range. -/
inductive BadSetting
  | compactBelow (n : Nat)
  | shrinkFrom (n : Nat)
  | passBytes (n : Nat)
  | noBuffers
  deriving DecidableEq

def BadSetting.message : BadSetting → String
  | .compactBelow n => s!"auto_compact_fill_rate must be within 0..=100, got {n}"
  | .shrinkFrom n => s!"shrink_min_percent must be within 0..=100, got {n}"
  | .passBytes n => s!"compact_move_size must be at least one block ({blockSize} bytes), got {n}"
  | .noBuffers => "write_buffer_pool_size must be greater than zero"

inductive StoreError
  | device (cause : DeviceError)
  | readOnly
  | corruption (cause : Damage)
  | breach (cause : Breach)
  | chunkNotFound (id : UInt32)
  | imageCut
  | settings (cause : BadSetting)
  deriving DecidableEq

def StoreError.message : StoreError → String
  | .device cause => s!"IO error: {cause.message}"
  | .readOnly => "Store is read-only"
  | .corruption cause => s!"Corruption detected: {cause.message}"
  | .breach cause => s!"Invariant violated: {cause.message}"
  | .chunkNotFound id => s!"Chunk not found: {id}"
  | .imageCut => "Serialization error: io error: unexpected end of file"
  | .settings cause => s!"Configuration error: {cause.message}"

/-- Why a run has no result. -/
inductive Failure
  | fault (cause : Fault)
  | error (cause : StoreError)
  deriving DecidableEq

instance : MonadLift Checked (Except Failure) := ⟨Except.mapError .fault⟩

instance : MonadLift (Except StoreError) (Except Failure) := ⟨Except.mapError .error⟩

end BlockStore
