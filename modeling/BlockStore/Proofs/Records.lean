import BlockStore.Image
import BlockStore.Superblock
import BlockStore.Proofs.Frame
import BlockStore.Proofs.Medium

namespace BlockStore

open LittleEndian Checksum Bytes

attribute [local simp] LittleEndian.length_encode field_skip field_encode field_encode_last
  decode_encode32 decode_encode64

namespace Superblock

variable {s x y : Superblock} {b : ByteArray} {pos : Nat}

theorem length_magic : magic.length = 8 := by decide

theorem length_body (s : Superblock) : s.body.length = 34 := by simp [body, length_magic]

theorem parse_record (s : Superblock) : parse s.record = some s := by
  have hbody : s.record.take 34 = s.body := List.take_left' s.length_body
  have hmagic : s.record.take 8 = magic := by
    simp only [record, body, List.append_assoc]
    exact List.take_left' length_magic
  have hsum : field s.record 34 4 = (crc32 s.body).toNat := by
    simp [record, s.length_body, Frame.checksum]
  have hformat : field s.record 8 2 = format := by
    simp [record, body, length_magic]
    rfl
  have hversion : field s.record 10 8 = s.version.toNat := by simp [record, body, length_magic]
  have hid : field s.record 18 4 = s.rootId.toNat := by simp [record, body, length_magic]
  have hblock : field s.record 22 8 = s.rootBlock.toNat := by simp [record, body, length_magic]
  have hlen : field s.record 30 4 = s.rootLen.toNat := by simp [record, body, length_magic]
  simp [parse, hmagic, hformat, hsum, hbody, hversion, hid, hblock, hlen]

theorem size_copy (s : Superblock) : s.copy.size = blockSize := by
  rw [copy, size_grow, size_ofList, length_record]
  decide

theorem size_toBytes (s : Superblock) : s.toBytes.size = headerBytes := by
  rw [toBytes, ByteArray.size_append, size_copy]
  rfl

theorem size_toBytes_pos (s : Superblock) : 0 < s.toBytes.size := by
  rw [size_toBytes]
  decide

/-- A block that holds a copy is read as its record. -/
theorem readCopy?_slice (h : Holds b pos s.copy) (hp : pos + blockSize ≤ headerBytes) :
    readCopy? (slice b 0 headerBytes) pos = some s := by
  have hlt : recordSize ≤ blockSize := by decide
  have hrec : toList (slice (slice b 0 headerBytes) pos recordSize) = s.record := by
    have hcopy := congrArg toList h.2
    rw [size_copy, toList_slice, copy, toList_grow, toList_ofList] at hcopy
    rw [toList_slice, toList_slice, List.drop_zero, List.drop_take, List.take_take,
      Nat.min_eq_left (by omega)]
    have hshort := congrArg (List.take recordSize) hcopy
    rwa [List.take_take, Nat.min_eq_left hlt, List.take_left' s.length_record] at hshort
  rw [readCopy?, hrec]
  simp only [length_record, if_true]
  exact parse_record s

/-- Of two copies the one of the higher version counts. -/
theorem read_slice (hx : Holds b 0 x.copy) (hy : Holds b blockSize y.copy) :
    read (slice b 0 headerBytes) = .ok (if y.version < x.version then x else y) := by
  rw [read, readCopy?_slice hx (by decide), readCopy?_slice hy (by decide)]

/-- Both header blocks hold the record. -/
def Names (s : Superblock) (b : ByteArray) : Prop := Holds b 0 s.copy ∧ Holds b blockSize s.copy

theorem Names.read_slice (h : s.Names b) : read (slice b 0 headerBytes) = .ok s := by
  rw [Superblock.read_slice h.1 h.2, ite_self]

theorem Names.headerBytes_le (h : s.Names b) : headerBytes ≤ b.size := by
  have := h.2.1
  rw [size_copy] at this
  exact this

theorem slice_toBytes (s : Superblock) :
    slice s.toBytes 0 blockSize = s.copy ∧ slice s.toBytes blockSize blockSize = s.copy := by
  have hl : (toList s.copy).length = blockSize := s.size_copy
  constructor <;> refine ext_toList ?_ <;> rw [toList_slice, toBytes, toList_append]
  · rw [List.drop_zero, List.take_left' hl]
  · rw [List.drop_left' hl, List.take_of_length_le (Nat.le_of_eq hl)]

theorem pieces_write (s : Superblock) :
    Change.pieces (.write 0 s.toBytes) = [.write 0 s.copy, .write blockSize s.copy] := by
  have hc : blocksCovering s.toBytes.size blockSize = 2 := by rw [size_toBytes]; decide
  have hr : List.range 2 = [0, 1] := by decide
  rw [Change.pieces, hc, hr, size_toBytes]
  simp only [List.map_cons, List.map_nil, Nat.zero_mul, Nat.one_mul, Nat.zero_add, Nat.sub_zero]
  rw [Nat.min_eq_left (show blockSize ≤ headerBytes by decide),
    Nat.min_eq_left (show blockSize ≤ headerBytes - blockSize by decide), s.slice_toBytes.1,
    s.slice_toBytes.2]

end Superblock

namespace Image

theorem readEntry_entry {c : Chunk} (h : c.priority = 0) (rest : List UInt8) :
    readEntry (entry c ++ rest) = c := by
  have hid : field (entry c ++ rest) 0 4 = c.id.toNat := by simp [entry]
  have hblock : field (entry c ++ rest) 4 8 = c.block.toNat := by simp [entry]
  have hlen : field (entry c ++ rest) 12 4 = c.len.toNat := by simp [entry]
  have hversion : field (entry c ++ rest) 16 8 = c.version.toNat := by simp [entry]
  have hsize : field (entry c ++ rest) 24 8 = c.size.toNat := by simp [entry]
  have hlive : field (entry c ++ rest) 32 8 = c.liveSize.toNat := by simp [entry]
  have hnext : field (entry c ++ rest) 40 8 = c.next.toNat := by simp [entry]
  simp [readEntry, hid, hblock, hlen, hversion, hsize, hlive, hnext]
  cases c
  simp_all

theorem readEntries_entries {cs : List Chunk} (h : ∀ c ∈ cs, c.priority = 0) (rest : List UInt8) :
    readEntries cs.length (cs.flatMap entry ++ rest) = some cs := by
  induction cs with
  | nil => rfl
  | cons c cs ih =>
    have hread := readEntry_entry (h c List.mem_cons_self) []
    rw [List.append_nil] at hread
    simp only [List.length_cons, readEntries, List.flatMap_cons, List.append_assoc]
    rw [List.take_left' (length_entry c), List.drop_left' (length_entry c), length_entry,
      if_neg (Nat.lt_irrefl _), ih fun d hd => h d (List.mem_cons_of_mem _ hd), hread]
    rfl

theorem length_toBytes (i : Image) : i.toBytes.length = headSize + entrySize * i.chunks.length := by
  have hentries (cs : List Chunk) : (cs.flatMap entry).length = entrySize * cs.length := by
    induction cs with
    | nil => rfl
    | cons c cs ih =>
      rw [List.flatMap_cons, List.length_append, length_entry, ih, List.length_cons, Nat.mul_succ,
        Nat.add_comm]
  simp only [toBytes, List.length_append, LittleEndian.length_encode, hentries, headSize]

variable {i : Image} {raw : List UInt8}

/-- What the head of an image says of it, with these chunks behind it. -/
def headed (raw : List UInt8) (chunks : List Chunk) : Image where
  version := (field raw 0 8).toUInt64
  nextId := (field raw 8 4).toUInt32
  chunks := chunks

theorem ofBytes?_eq (raw : List UInt8) : ofBytes? raw =
    if headSize ≤ raw.length then
      (readEntries (field raw 12 8) (raw.drop headSize)).map (headed raw)
    else none := by
  have hlen : headSize ≤ (raw.take headSize).length ↔ headSize ≤ raw.length := by
    rw [List.length_take]
    omega
  unfold ofBytes?
  simp only [guard, hlen]
  split
  · cases readEntries (field raw 12 8) (raw.drop headSize) <;> rfl
  · rfl

theorem read_eq_ok : read raw = .ok i ↔ ofBytes? raw = some i := by
  rw [read]
  cases ofBytes? raw with
  | none => exact ⟨nofun, nofun⟩
  | some j => exact ⟨fun h => congrArg some (Except.ok.inj h), fun h => congrArg _ (Option.some.inj h)⟩

/-- Of a chunk everything is stored but its priority, which only a compaction sets. -/
theorem read_toBytes_append (hc : ∀ c ∈ i.chunks, c.priority = 0)
    (hlen : i.chunks.length < UInt64.size) (rest : List UInt8) :
    read (i.toBytes ++ rest) = .ok i := by
  have hversion : field (i.toBytes ++ rest) 0 8 = i.version.toNat := by simp [toBytes]
  have hnext : field (i.toBytes ++ rest) 8 4 = i.nextId.toNat := by simp [toBytes]
  have hcount : field (i.toBytes ++ rest) 12 8 = i.chunks.length := by
    simp [toBytes]
    exact decode_encode hlen
  have hdrop : (i.toBytes ++ rest).drop headSize = i.chunks.flatMap entry ++ rest := by
    rw [toBytes, List.append_assoc _ _ rest]
    exact List.drop_left' (by simp [headSize])
  have hhead : headSize ≤ (i.toBytes ++ rest).length := by
    rw [List.length_append, length_toBytes]
    omega
  rw [read_eq_ok, ofBytes?_eq, if_pos hhead, hcount, hdrop, readEntries_entries hc]
  simp [headed, hversion, hnext]

theorem read_toBytes (hc : ∀ c ∈ i.chunks, c.priority = 0)
    (hlen : i.chunks.length < UInt64.size) : read i.toBytes = .ok i := by
  have h := read_toBytes_append hc hlen []
  rwa [List.append_nil] at h

end Image

end BlockStore
