import BlockStore.Proofs.Records
import BlockStore.Proofs.Selection

namespace BlockStore.Image

open LittleEndian

variable {raw part : List UInt8} {i : Image} {cs : List Chunk} {n : Nat}

theorem entry_readEntry (h : raw.length = entrySize) : entry (readEntry raw) = raw := by
  simp only [entrySize] at h
  simp only [entry, readEntry, encode_field32 (show 0 + 4 ≤ raw.length by omega),
    encode_field64 (show 4 + 8 ≤ raw.length by omega),
    encode_field32 (show 12 + 4 ≤ raw.length by omega),
    encode_field64 (show 16 + 8 ≤ raw.length by omega),
    encode_field64 (show 24 + 8 ≤ raw.length by omega),
    encode_field64 (show 32 + 8 ≤ raw.length by omega),
    encode_field64 (show 40 + 8 ≤ raw.length by omega), List.drop_zero, ← List.take_add]
  exact List.take_of_length_le (Nat.le_of_eq h)

theorem of_readEntries (h : readEntries n raw = some cs) :
    cs.length = n ∧ cs.flatMap entry <+: raw ∧ ∀ c ∈ cs, c.priority = 0 := by
  induction n generalizing raw cs with
  | zero =>
    obtain rfl := Option.some.inj h
    exact ⟨rfl, List.nil_prefix, List.forall_mem_nil _⟩
  | succ n ih =>
    rw [readEntries] at h
    split at h
    · cases h
    next hlen =>
    obtain ⟨rest, hrest, rfl⟩ := Option.map_eq_some_iff.1 h
    obtain ⟨hn, hpre, hzero⟩ := ih hrest
    have hfirst : (raw.take entrySize).length = entrySize := by
      rw [List.length_take] at hlen ⊢
      omega
    refine ⟨congrArg (· + 1) hn, ?_, List.forall_mem_cons.2 ⟨rfl, hzero⟩⟩
    rw [List.flatMap_cons, entry_readEntry hfirst]
    conv_rhs => rw [← List.take_append_drop entrySize raw]
    exact (List.prefix_append_right_inj _).2 hpre

theorem toBytes_headed (hlen : headSize ≤ raw.length) (hn : cs.length = field raw 12 8) :
    (headed raw cs).toBytes = raw.take headSize ++ cs.flatMap entry := by
  simp only [headSize] at hlen ⊢
  rw [toBytes, headed, hn, encode_field64 (by omega), encode_field32 (by omega),
    encode_field (by omega), List.drop_zero, ← List.take_add, ← List.take_add]

theorem of_read (h : read raw = .ok i) :
    i.toBytes <+: raw ∧ i.chunks.length < UInt64.size ∧ ∀ c ∈ i.chunks, c.priority = 0 := by
  rw [read_eq_ok, ofBytes?_eq] at h
  split at h
  · next hlen =>
    obtain ⟨cs, hcs, rfl⟩ := Option.map_eq_some_iff.1 h
    obtain ⟨hn, hpre, hzero⟩ := of_readEntries hcs
    refine ⟨?_, Nat.lt_of_le_of_lt (Nat.le_of_eq hn) (field_lt hlen), hzero⟩
    rw [toBytes_headed hlen hn]
    conv_rhs => rw [← List.take_append_drop headSize raw]
    exact (List.prefix_append_right_inj _).2 hpre
  · cases h

/-- Bytes are read as the image whose bytes they start with. -/
theorem read_eq_ok_iff : read raw = .ok i ↔
    i.toBytes <+: raw ∧ i.chunks.length < UInt64.size ∧ ∀ c ∈ i.chunks, c.priority = 0 := by
  refine ⟨of_read, ?_⟩
  rintro ⟨⟨rest, rfl⟩, hlen, hzero⟩
  exact read_toBytes_append hzero hlen rest

/-- The image as it is stored. -/
def unweighed (i : Image) : Image := { i with chunks := i.chunks.map Chunk.unweighed }

theorem toBytes_unweighed (i : Image) : i.unweighed.toBytes = i.toBytes := by
  simp only [toBytes, unweighed, List.length_map, List.flatMap_map]
  rfl

theorem read_append (h : i.chunks.length < UInt64.size) (rest : List UInt8) :
    read (i.toBytes ++ rest) = .ok i.unweighed := by
  rw [read_eq_ok_iff, toBytes_unweighed]
  refine ⟨List.prefix_append .., Nat.lt_of_le_of_lt (Nat.le_of_eq (List.length_map ..)) h, ?_⟩
  intro c hc
  obtain ⟨d, -, rfl⟩ := List.mem_map.1 hc
  rfl

theorem read_eq_ok_or_cut (raw : List UInt8) :
    (∃ i, read raw = .ok i) ∨ read raw = .error .imageCut := by
  rw [read]
  cases ofBytes? raw with
  | none => exact .inr rfl
  | some i => exact .inl ⟨i, rfl⟩

theorem read_cut (h : i.chunks.length < UInt64.size) (hp : part <+: i.toBytes)
    (hne : part ≠ i.toBytes) : read part = .error .imageCut := by
  refine (read_eq_ok_or_cut part).resolve_left ?_
  rintro ⟨j, hj⟩
  have hpart : j.toBytes <+: part := (of_read hj).1
  -- The bytes of `i` start with those of both images, and are read as one image only.
  have hij : read i.toBytes = .ok j := read_eq_ok_iff.2 ⟨hpart.trans hp, (of_read hj).2⟩
  have hii := read_append h []
  rw [List.append_nil, hij] at hii
  obtain rfl := Except.ok.inj hii
  rw [toBytes_unweighed] at hpart
  exact hne (hp.eq_of_length_le hpart.length_le)

/-- An image comes back from its bytes, whatever follows them, but for the priorities of its chunks;
less than its bytes is no image; and what is read as an image starts with its bytes. A list of chunks
in memory is shorter than `2 ^ 64`. -/
theorem read_exact :
    (∀ i : Image, i.chunks.length < UInt64.size →
      (∀ rest, read (i.toBytes ++ rest) =
        .ok { i with chunks := i.chunks.map fun c => { c with priority := 0 } }) ∧
      ∀ part, part <+: i.toBytes → part ≠ i.toBytes → read part = .error .imageCut) ∧
    ∀ raw i, read raw = .ok i → i.toBytes <+: raw :=
  ⟨fun _ h => ⟨read_append h, fun _ => read_cut h⟩, fun _ _ h => (of_read h).1⟩

/-- Two chunks, one of them weighed: cut in the middle of the second, and with bytes behind it. -/
theorem read_exact_weighed :
    let c : Chunk := { id := 3, block := 10, len := 2, version := 2, priority := 55 }
    let d : Chunk := { id := 5, block := 12, len := 1, version := 1, size := 9, liveSize := 9 }
    let i : Image := ⟨2, 6, [c, d]⟩
    i.chunks.length < UInt64.size ∧
      read (i.toBytes ++ [1, 2, 3]) = .ok ⟨2, 6, [{ c with priority := 0 }, d]⟩ ∧
      (i.toBytes.take 90 <+: i.toBytes ∧ i.toBytes.take 90 ≠ i.toBytes ∧
        read (i.toBytes.take 90) = .error .imageCut) ∧
      Image.toBytes ⟨2, 6, [{ c with priority := 0 }, d]⟩ <+: i.toBytes ++ [1, 2, 3] := by
  intro c d i
  have hlen : i.chunks.length < UInt64.size := by decide
  have hread := (read_exact.1 i hlen).1 [1, 2, 3]
  have hpart : i.toBytes.take 90 <+: i.toBytes := List.take_prefix ..
  have hne : i.toBytes.take 90 ≠ i.toBytes := by decide
  exact ⟨hlen, hread, ⟨hpart, hne, (read_exact.1 i hlen).2 _ hpart hne⟩, read_exact.2 _ _ hread⟩

end BlockStore.Image
