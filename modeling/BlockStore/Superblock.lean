import BlockStore.Frame

namespace BlockStore

open LittleEndian Checksum

/-- The record at the start of a file that names the version and place of the root. -/
structure Superblock where
  version : UInt64 := 0
  rootId : UInt32 := 0
  rootBlock : UInt64 := unsaved
  rootLen : UInt32 := 0
  deriving DecidableEq

namespace Superblock

def magic : List UInt8 := [67, 86, 83, 84, 79, 82, 69, 0]

def format : Nat := 1

def naming (version : UInt64) (root : Chunk) : Superblock :=
  ⟨version, root.id, root.block, root.len⟩

def namesRoot (s : Superblock) : Bool := s.rootBlock ≠ unsaved ∧ 0 < s.rootLen

def body (s : Superblock) : List UInt8 :=
  magic ++ encode 2 format ++ encode 8 s.version.toNat ++ encode 4 s.rootId.toNat ++
    encode 8 s.rootBlock.toNat ++ encode 4 s.rootLen.toNat

def record (s : Superblock) : List UInt8 := s.body ++ Frame.checksum s.body

def recordSize : Nat := 38

theorem length_record (s : Superblock) : s.record.length = recordSize := by
  simp [record, body, magic, Frame.length_checksum, length_encode, recordSize]

/-- A block that holds the record and else zeros. -/
def copy (s : Superblock) : ByteArray := Bytes.grow (Bytes.ofList s.record) blockSize

/-- A copy of the record in each header block. -/
def toBytes (s : Superblock) : ByteArray := s.copy ++ s.copy

def parse (raw : List UInt8) : Option Superblock :=
  if raw.take 8 = magic ∧ field raw 8 2 = format ∧
      (field raw 34 4).toUInt32 = crc32 (raw.take 34) then
    some {
      version := (field raw 10 8).toUInt64
      rootId := (field raw 18 4).toUInt32
      rootBlock := (field raw 22 8).toUInt64
      rootLen := (field raw 30 4).toUInt32 }
  else none

/-- The copy that starts at `pos`, if it is whole and sound. -/
def readCopy? (buf : ByteArray) (pos : Nat) : Option Superblock :=
  let raw := Bytes.toList (Bytes.slice buf pos recordSize)
  if raw.length = recordSize then parse raw else none

/-- The sound copy of the higher version, of equal ones the second. -/
def read (buf : ByteArray) : Except Damage Superblock :=
  match readCopy? buf 0, readCopy? buf blockSize with
  | some a, some b => .ok (if b.version < a.version then a else b)
  | some a, none => .ok a
  | none, some b => .ok b
  | none, none => .error .noSuperblock

end Superblock

end BlockStore
