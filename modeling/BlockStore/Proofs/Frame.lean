import BlockStore.Frame
import BlockStore.Proofs.Bytes
import BlockStore.Proofs.Occupancy

namespace BlockStore.Frame

open LittleEndian Checksum Bytes

attribute [local simp] LittleEndian.length_encode field_skip field_encode field_encode_last
  decode_encode32 decode_encode64

theorem length_headMagic : headMagic.length = 4 := by decide

theorem Head.length_body (h : Head) : h.body.length = 44 := by
  simp [Head.body, length_headMagic]

theorem Foot.length_body (f : Foot) : f.body.length = 24 := by
  simp [Foot.body]

theorem Head.parse_encode (h : Head) : Head.parse h.encode = .ok h := by
  have hbody : h.encode.take 44 = h.body := List.take_left' h.length_body
  have hmagic : h.encode.take 4 = headMagic := by
    simp only [Head.encode, Head.body, List.append_assoc]
    exact List.take_left' length_headMagic
  have hsum : field h.encode 44 4 = (crc32 h.body).toNat := by
    simp [Head.encode, h.length_body, checksum]
  have hformat : field h.encode 4 2 = format := by
    simp [Head.encode, Head.body, length_headMagic]
    rfl
  have hid : field h.encode 8 4 = h.id.toNat := by
    simp [Head.encode, Head.body, length_headMagic]
  have hlen : field h.encode 12 4 = h.len.toNat := by
    simp [Head.encode, Head.body, length_headMagic]
  have hblock : field h.encode 16 8 = h.block.toNat := by
    simp [Head.encode, Head.body, length_headMagic]
  have hversion : field h.encode 24 8 = h.version.toNat := by
    simp [Head.encode, Head.body, length_headMagic]
  have hnext : field h.encode 32 8 = h.next.toNat := by
    simp [Head.encode, Head.body, length_headMagic]
  have hpayload : field h.encode 40 4 = h.payload.toNat := by
    simp [Head.encode, Head.body, length_headMagic]
  simp [Head.parse, hmagic, hformat, hsum, hbody, hid, hlen, hblock, hversion, hnext, hpayload]
  rfl

theorem Foot.parse_encode (f : Foot) : Foot.parse f.encode = .ok f := by
  have hbody : f.encode.take 24 = f.body := by
    rw [Foot.encode, List.append_assoc]
    exact List.take_left' f.length_body
  have hmagic : f.encode.drop 28 = footMagic := by
    rw [Foot.encode]
    exact List.drop_left' (by rw [List.length_append, f.length_body, length_checksum])
  have hsum : field f.encode 24 4 = (crc32 f.body).toNat := by
    simp [Foot.encode, f.length_body, checksum]
  have hid : field f.encode 0 4 = f.id.toNat := by simp [Foot.encode, Foot.body]
  have hlen : field f.encode 4 4 = f.len.toNat := by simp [Foot.encode, Foot.body]
  have hblock : field f.encode 8 8 = f.block.toNat := by simp [Foot.encode, Foot.body]
  have hversion : field f.encode 16 8 = f.version.toNat := by simp [Foot.encode, Foot.body]
  simp [Foot.parse, hmagic, hsum, hbody, hid, hlen, hblock, hversion]
  rfl

/-- What a framed buffer has between head and foot. -/
def middle (buf : ByteArray) : ByteArray := buf.extract Chunk.headSize (buf.size - Chunk.footSize)

def wrap (c : Chunk) (n : UInt32) (mid : ByteArray) : ByteArray :=
  ofList (Head.ofChunk c n).encode ++ mid ++ ofList (Foot.ofChunk c).encode

/-- The blocks of `c` when they hold the payload `p`. -/
def framed (c : Chunk) (p : ByteArray) : ByteArray :=
  wrap c p.size.toUInt32 (grow p (c.byteLen - Chunk.headSize - Chunk.footSize))

/-- The payload goes into the blocks of the chunk, and its size into the head. -/
def Fits (c : Chunk) (p : ByteArray) : Prop :=
  Chunk.headSize + p.size + Chunk.footSize ≤ c.byteLen ∧ p.size < UInt32.size

variable {c d : Chunk} {n : UInt32} {buf mid p : ByteArray}

theorem size_wrap (c : Chunk) (n : UInt32) (mid : ByteArray) :
    (wrap c n mid).size = Chunk.headSize + mid.size + Chunk.footSize := by
  simp [wrap, ByteArray.size_append, Head.length_encode, Foot.length_encode]

theorem size_wrap_pos (c : Chunk) (n : UInt32) (mid : ByteArray) : 0 < (wrap c n mid).size := by
  rw [size_wrap, Chunk.headSize]
  omega

theorem toList_wrap (c : Chunk) (n : UInt32) (mid : ByteArray) : toList (wrap c n mid) =
    (Head.ofChunk c n).encode ++ (toList mid ++ (Foot.ofChunk c).encode) := by
  simp [wrap]

theorem middle_wrap (c : Chunk) (n : UInt32) (mid : ByteArray) : middle (wrap c n mid) = mid := by
  have hm : (toList mid).length = mid.size := rfl
  refine ext_toList ?_
  rw [middle, size_wrap, Nat.add_sub_cancel, toList_extract, toList_wrap, ← List.append_assoc,
    List.take_left' (by rw [List.length_append, Head.length_encode, hm]),
    List.drop_left' (Head.length_encode _)]

theorem write_eq (h : Chunk.headSize + Chunk.footSize ≤ buf.size) (c : Chunk) (n : UInt32) :
    write buf c n = .ok (wrap c n (middle buf)) := by
  have hh := (Head.ofChunk c n).length_encode
  have hf := (Foot.ofChunk c).length_encode
  have hs : (overwrite buf 0 (ofList (Head.ofChunk c n).encode)).size = buf.size :=
    size_overwrite (by rw [size_ofList, hh]; omega)
  have hb : (toList buf).length = buf.size := rfl
  simp only [write, writeHead, writeFoot]
  rw [if_neg (by omega)]
  simp only [pure_ok, ok_bind, hs]
  rw [if_neg (by omega)]
  refine congrArg Except.ok (ext_toList ?_)
  rw [toList_wrap, toList_overwrite, toList_overwrite, middle, toList_extract]
  simp only [List.take_zero, List.nil_append, Nat.zero_add, toList_ofList, size_ofList, hh, hf]
  have htail : ((Head.ofChunk c n).encode ++ (toList buf).drop Chunk.headSize).drop buf.size = [] :=
    List.drop_of_length_le (by rw [List.length_append, List.length_drop, hh, hb]; omega)
  rw [Nat.sub_add_cancel (by omega), htail, List.take_append, hh,
    List.take_of_length_le (by rw [hh]; omega), List.append_nil, List.drop_take, List.append_assoc]

theorem size_of_write {out : ByteArray} (h : write buf c n = .ok out) : out.size = buf.size := by
  unfold write writeHead writeFoot at h
  split at h
  · exact nomatch h
  · next hh =>
    rw [pure_ok, ok_bind] at h
    have hhead := (Head.ofChunk c n).length_encode
    have hfoot := (Foot.ofChunk c).length_encode
    have hsize : (overwrite buf 0 (ofList (Head.ofChunk c n).encode)).size = buf.size :=
      size_overwrite (by rw [size_ofList, hhead]; omega)
    split at h
    · exact nomatch h
    · next hf =>
      obtain rfl := Except.ok.inj h
      rw [size_overwrite (by rw [size_ofList, hfoot]; omega), hsize]

theorem size_framed (h : Fits c p) : (framed c p).size = c.byteLen := by
  rw [framed, size_wrap, size_grow]
  have := h.1
  omega

theorem le_size_framed (c : Chunk) (p : ByteArray) :
    Chunk.headSize + p.size + Chunk.footSize ≤ (framed c p).size := by
  rw [framed, size_wrap, size_grow]
  omega

/-- A frame put around the bytes of another one of the same length replaces it. -/
theorem write_framed (hl : d.len = c.len) :
    write (framed c p) d p.size.toUInt32 = .ok (framed d p) := by
  rw [write_eq (by have := le_size_framed c p; omega), framed, middle_wrap, framed, Chunk.byteLen,
    Chunk.byteLen, hl]

theorem write_blank (h : Fits c p) : write (overwrite (zeros c.byteLen) Chunk.headSize p) c
    p.size.toUInt32 = .ok (framed c p) := by
  have hfit := h.1
  have hs : (overwrite (zeros c.byteLen) Chunk.headSize p).size = c.byteLen := by
    rw [size_overwrite (by rw [size_zeros]; omega), size_zeros]
  have hp : (toList p).length = p.size := rfl
  have hmid : middle (overwrite (zeros c.byteLen) Chunk.headSize p) =
      grow p (c.byteLen - Chunk.headSize - Chunk.footSize) := by
    refine ext_toList ?_
    rw [middle, hs, toList_extract, toList_overwrite, toList_zeros, toList_grow, List.drop_take,
      List.append_assoc, List.drop_left' (by rw [List.length_take, List.length_replicate]; omega),
      List.drop_replicate, List.take_append, List.take_replicate, hp,
      List.take_of_length_le (by rw [hp]; omega)]
    congr 2
    omega
  rw [write_eq (by omega), framed, hmid]

theorem readHead_wrap (c : Chunk) (n : UInt32) (mid : ByteArray) :
    readHead (wrap c n mid) = .ok (.ofChunk c n) := by
  have hs := size_wrap c n mid
  rw [readHead, if_neg (by omega), toList_slice, List.drop_zero, toList_wrap,
    List.take_left' (Head.length_encode _), Head.parse_encode]

theorem readFoot_wrap (c : Chunk) (n : UInt32) (mid : ByteArray) :
    readFoot (wrap c n mid) = .ok (.ofChunk c) := by
  have hs := size_wrap c n mid
  have hm : (toList mid).length = mid.size := rfl
  rw [readFoot, if_neg (by omega), toList_slice, hs, Nat.add_sub_cancel, toList_wrap,
    ← List.append_assoc, List.drop_left' (by rw [List.length_append, Head.length_encode, hm]),
    List.take_of_length_le (Nat.le_of_eq (Foot.length_encode _)), Foot.parse_encode]

theorem payloadSize_wrap (c : Chunk) (h : n.toNat ≤ mid.size) :
    payloadSize (wrap c n mid) = .ok n := by
  have hs := size_wrap c n mid
  simp only [payloadSize, readHead_wrap, ok_bind, Head.ofChunk]
  rw [if_neg (by omega)]
  rfl

theorem payload_wrap (c : Chunk) (n : UInt32) (mid : ByteArray) (h : n.toNat ≤ mid.size) :
    payload (wrap c n mid) (.ofChunk c n) = slice mid 0 n.toNat := by
  have hm : (toList mid).length = mid.size := rfl
  have hn : (Head.ofChunk c n).payload.toNat = n.toNat := rfl
  refine ext_toList ?_
  rw [payload, hn, toList_slice, toList_wrap, List.drop_left' (Head.length_encode _),
    List.take_append_of_le_length (by omega), toList_slice, List.drop_zero]

/-- A frame passes for the record that names it. -/
theorem verify_wrap (h : n.toNat ≤ mid.size) (hid : d.id = c.id) (hlen : d.len = c.len)
    (hblock : d.block = c.block) : verify (wrap c n mid) d = .ok (.ofChunk c n) := by
  have hhead : (Head.ofChunk c n).isOf d := by
    simp [Head.isOf, Head.ofChunk, hid, hlen, hblock]
  have hfoot : (Foot.ofChunk c).isOf d := by
    simp [Foot.isOf, Foot.ofChunk, hid, hlen, hblock]
  unfold verify
  rw [readHead_wrap, readFoot_wrap, payloadSize_wrap c h]
  change (if _ then _ else _ : Except Failure Head) = _
  rw [if_pos hhead]
  change (if _ then _ else _ : Except Failure Head) = _
  rw [if_pos ⟨hfoot, rfl⟩]
  rfl

theorem toNat_payload (h : Fits c p) : p.size.toUInt32.toNat = p.size :=
  UInt32.toNat_ofNat_of_lt' h.2

theorem Fits.le_size_grow (h : Fits c p) (n : Nat) : p.size.toUInt32.toNat ≤ (grow p n).size := by
  rw [toNat_payload h, size_grow]
  exact Nat.le_max_left _ _

theorem payloadSize_framed (h : Fits c p) : payloadSize (framed c p) = .ok p.size.toUInt32 :=
  payloadSize_wrap c (h.le_size_grow _)

theorem payload_framed (h : Fits c p) : payload (framed c p) (.ofChunk c p.size.toUInt32) = p := by
  have hp : (toList p).length = p.size := rfl
  refine ext_toList ?_
  rw [framed, payload_wrap c _ _ (h.le_size_grow _), toNat_payload h, toList_slice, List.drop_zero,
    toList_grow, List.take_left' hp]

theorem verify_framed (h : Fits c p) (hid : d.id = c.id) (hlen : d.len = c.len)
    (hblock : d.block = c.block) : verify (framed c p) d = .ok (.ofChunk c p.size.toUInt32) :=
  verify_wrap (h.le_size_grow _) hid hlen hblock

theorem liftM_damage_eq_ok {α : Type} {x : Except Damage α} {a : α}
    (h : (liftM x : Except Failure α) = .ok a) : x = .ok a := by
  cases x with
  | error e => exact nomatch h
  | ok b => exact congrArg Except.ok (Except.ok.inj h)

theorem of_payloadSize (h : payloadSize buf = .ok n) : ∃ head, readHead buf = .ok head ∧
    head.payload = n ∧ Chunk.headSize + n.toNat + Chunk.footSize ≤ buf.size := by
  unfold payloadSize at h
  obtain ⟨head, hhead, h⟩ := bind_eq_ok h
  split at h
  · exact nomatch h
  · next hle =>
    obtain rfl := Except.ok.inj h
    exact ⟨head, hhead, rfl, Nat.le_of_not_lt hle⟩

/-- The payload of a buffer lies between head and foot. -/
theorem payload_eq {head : Head}
    (h : Chunk.headSize + head.payload.toNat + Chunk.footSize ≤ buf.size) :
    payload buf head = slice (middle buf) 0 head.payload.toNat := by
  refine ext_toList ?_
  rw [payload, middle, toList_slice, toList_slice, toList_extract, List.drop_zero, List.drop_take,
    List.take_take, Nat.min_eq_left (by omega)]

end BlockStore.Frame
