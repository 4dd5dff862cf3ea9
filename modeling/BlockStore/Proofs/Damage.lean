import BlockStore.Proofs.Checksum
import BlockStore.Proofs.Records

namespace BlockStore

open LittleEndian Checksum Bytes

variable {raw : List UInt8}

namespace Frame

/-- What passes for a head has its checksum behind it. -/
theorem Head.register_of_parse {h : Head} (hlen : raw.length = Chunk.headSize)
    (hp : Head.parse raw = .ok h) : register raw = residue := by
  rw [register_eq_residue (n := 44) hlen]
  by_contra hsum
  rw [Head.parse] at hp
  split at hp
  · cases hp
  · split at hp
    · cases hp
    · rw [if_pos hsum] at hp
      cases hp

theorem Head.eq_encode_of_burst {h found : Head} (hb : Burst h.encode raw)
    (hp : Head.parse raw = .ok found) : raw = h.encode := by
  have hsound := Head.register_of_parse h.length_encode h.parse_encode
  have hlen : raw.length = Chunk.headSize := hb.length_eq.trans h.length_encode
  exact (hb.eq_of_register (hsound.trans (Head.register_of_parse hlen hp).symm)).symm

theorem Foot.of_parse {f : Foot} (hlen : raw.length = Chunk.footSize)
    (hp : Foot.parse raw = .ok f) : register (raw.take 28) = residue ∧ raw.drop 28 = footMagic := by
  rw [Foot.parse] at hp
  split at hp
  · cases hp
  · next hmagic =>
    have hsum : (field raw 24 4).toUInt32 = crc32 (raw.take 24) := by
      by_contra hne
      rw [if_pos hne] at hp
      cases hp
    refine ⟨?_, not_not.1 hmagic⟩
    rw [register_eq_residue (n := 24) (by rw [List.length_take, hlen]; rfl), field, List.drop_take,
      List.take_take, List.take_take]
    exact hsum

/-- The magic number has no checksum, but no two values either. -/
theorem Foot.eq_encode_of_burst {f found : Foot} (hb : Burst f.encode raw)
    (hp : Foot.parse raw = .ok found) : raw = f.encode := by
  have hsound := Foot.of_parse f.length_encode f.parse_encode
  have hfound := Foot.of_parse (hb.length_eq.trans f.length_encode) hp
  rw [← List.take_append_drop 28 raw, ← List.take_append_drop 28 f.encode, hfound.2, hsound.2,
    (hb.take 28).eq_of_register (hsound.1.trans hfound.1.symm)]

theorem readHead_of_burst {h : Head} (hb : Burst h.encode raw) (hne : raw ≠ h.encode)
    (rest : List UInt8) : ∃ d, readHead (ofList (raw ++ rest)) = .error d := by
  have hlen : raw.length = Chunk.headSize := hb.length_eq.trans h.length_encode
  have hread : readHead (ofList (raw ++ rest)) = Head.parse raw := by
    rw [readHead, if_neg (by rw [size_ofList, List.length_append]; omega), toList_slice,
      toList_ofList, List.drop_zero, List.take_left' hlen]
  rw [hread]
  cases hp : Head.parse raw with
  | error d => exact ⟨d, rfl⟩
  | ok found => exact absurd (Head.eq_encode_of_burst hb hp) hne

theorem readFoot_of_burst {f : Foot} (hb : Burst f.encode raw) (hne : raw ≠ f.encode)
    (front : List UInt8) : ∃ d, readFoot (ofList (front ++ raw)) = .error d := by
  have hlen : raw.length = Chunk.footSize := hb.length_eq.trans f.length_encode
  have hread : readFoot (ofList (front ++ raw)) = Foot.parse raw := by
    rw [readFoot, size_ofList, List.length_append, hlen, if_neg (by omega), Nat.add_sub_cancel,
      toList_slice, toList_ofList, List.drop_left' rfl, List.take_of_length_le hlen.le]
  rw [hread]
  cases hp : Foot.parse raw with
  | error d => exact ⟨d, rfl⟩
  | ok found => exact absurd (Foot.eq_encode_of_burst hb hp) hne

end Frame

namespace Superblock

theorem register_of_parse {s : Superblock} (hlen : raw.length = recordSize)
    (hp : parse raw = some s) : register raw = residue := by
  rw [register_eq_residue (n := 34) hlen]
  rw [parse] at hp
  split at hp
  · next h => exact h.2.2
  · cases hp

theorem parse_of_burst {s found : Superblock} (hb : Burst s.record raw)
    (hp : parse raw = some found) : found = s := by
  have hsound := register_of_parse s.length_record s.parse_record
  have hlen : raw.length = recordSize := hb.length_eq.trans s.length_record
  obtain rfl := hb.eq_of_register (hsound.trans (register_of_parse hlen hp).symm)
  exact Option.some.inj (hp.symm.trans s.parse_record)

theorem record_of_toBytes (s : Superblock) {pos : Nat} (h : pos = 0 ∨ pos = blockSize) :
    ((toList s.toBytes).drop pos).take recordSize = s.record := by
  have hcopy : (toList s.copy).length = blockSize := s.size_copy
  have hrecord : (toList s.copy).take recordSize = s.record := by
    rw [copy, toList_grow, toList_ofList, List.take_left' s.length_record]
  have hle : recordSize ≤ (toList s.copy).length := by
    rw [hcopy]
    decide
  rw [toBytes, toList_append]
  rcases h with rfl | rfl
  · rw [List.drop_zero, List.take_append_of_le_length hle, hrecord]
  · rw [List.drop_left' hcopy, hrecord]

/-- Of the two copies one is out of reach of the burst, and the other is its equal or is not
taken for a copy. -/
theorem read_of_burst {s : Superblock} (hb : Burst (toList s.toBytes) raw) :
    read (ofList raw) = .ok s := by
  have hcopy (pos : Nat) : readCopy? (ofList raw) pos =
      if ((raw.drop pos).take recordSize).length = recordSize then
        parse ((raw.drop pos).take recordSize) else none := by
    rw [readCopy?, toList_slice, toList_ofList]
  have hintact (pos : Nat) (h : (raw.drop pos).take recordSize = s.record) :
      readCopy? (ofList raw) pos = some s := by
    rw [hcopy, h, if_pos s.length_record, s.parse_record]
  have hburst {pos : Nat} {found : Superblock} (h : pos = 0 ∨ pos = blockSize)
      (hf : readCopy? (ofList raw) pos = some found) : found = s := by
    rw [hcopy] at hf
    split at hf
    · have hpart := (hb.drop pos).take recordSize
      rw [record_of_toBytes s h] at hpart
      exact parse_of_burst hpart hf
    · cases hf
  rw [read]
  rcases hb.spares (i := 0) (j := blockSize) (n := recordSize) (by decide) with h | h
  · rw [hintact 0 (h.trans (record_of_toBytes s (.inl rfl)))]
    cases hf : readCopy? (ofList raw) blockSize with
    | none => rfl
    | some found => simp only [hburst (.inr rfl) hf, ite_self]
  · rw [hintact blockSize (by rw [h, record_of_toBytes s (.inr rfl)])]
    cases hf : readCopy? (ofList raw) 0 with
    | none => rfl
    | some found => simp only [hburst (.inl rfl) hf, ite_self]

end Superblock

/-- No change within four bytes of a head or a foot goes unnoticed, and none within four bytes
of the superblock is felt. -/
theorem burst_detected :
    (∀ (h : Frame.Head) (raw rest : List UInt8), Burst h.encode raw → raw ≠ h.encode →
      ∃ d, (liftM (Frame.readHead (ofList (raw ++ rest))) : Except Failure Frame.Head) =
        .error (.error (.corruption d))) ∧
    (∀ (f : Frame.Foot) (front raw : List UInt8), Burst f.encode raw → raw ≠ f.encode →
      ∃ d, (liftM (Frame.readFoot (ofList (front ++ raw))) : Except Failure Frame.Foot) =
        .error (.error (.corruption d))) ∧
    ∀ (s : Superblock) (raw : List UInt8), Burst (toList s.toBytes) raw →
      Superblock.read (ofList raw) = .ok s := by
  refine ⟨fun h raw rest hb hne => ?_, fun f front raw hb hne => ?_, fun s raw hb => ?_⟩
  · obtain ⟨d, hd⟩ := Frame.readHead_of_burst hb hne rest
    exact ⟨d, congrArg (Except.mapError _) hd⟩
  · obtain ⟨d, hd⟩ := Frame.readFoot_of_burst hb hne front
    exact ⟨d, congrArg (Except.mapError _) hd⟩
  · exact s.read_of_burst hb

theorem burst_detected_changed_byte :
    let h : Frame.Head := ⟨7, 1, 2, 3, unsaved, 5⟩
    let f : Frame.Foot := ⟨7, 1, 2, 3⟩
    let s : Superblock := ⟨7, 12, 40, 3⟩
    (∃ d, (liftM (Frame.readHead (ofList (h.encode.set 47 0 ++ [1]))) : Except Failure Frame.Head) =
        .error (.error (.corruption d))) ∧
      (∃ d, (liftM (Frame.readFoot (ofList ([1] ++ f.encode.set 16 9))) :
        Except Failure Frame.Foot) = .error (.error (.corruption d))) ∧
      Superblock.read (ofList ((toList s.toBytes).set 20 255)) = .ok s :=
  ⟨burst_detected.1 _ _ _ (.set _ _ _) (by decide +kernel),
    burst_detected.2.1 _ _ _ (.set _ _ _) (by decide +kernel),
    burst_detected.2.2 _ _ (.set _ _ _)⟩

end BlockStore
