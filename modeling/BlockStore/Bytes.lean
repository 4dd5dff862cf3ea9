import BlockStore.Fault

namespace BlockStore.Bytes

/-- Buffers are smaller than this: their sizes fit a signed word. -/
def limit : Nat := UInt64.size / 2

def room (n : Nat) : Checked Unit := if n < limit then .ok () else .error .capacity

def page : ByteArray := ⟨Array.replicate 4096 0⟩

/-- `n` zero bytes behind `buf`, most of them in whole pages. -/
def extend (buf : ByteArray) (n : Nat) : ByteArray :=
  Nat.repeat (· ++ page) (n / 4096) (buf ++ ⟨Array.replicate (n % 4096) 0⟩)

def zeros (n : Nat) : ByteArray := extend .empty n

def ofList (bytes : List UInt8) : ByteArray := ⟨bytes.toArray⟩

def toList (buf : ByteArray) : List UInt8 := buf.data.toList

def slice (buf : ByteArray) (start len : Nat) : ByteArray := buf.extract start (start + len)

/-- Extends `buf` with zero bytes to at least `n` bytes. -/
def grow (buf : ByteArray) (n : Nat) : ByteArray := extend buf (n - buf.size)

/-- Puts `patch` in place of the bytes from `pos` on, all of which exist. -/
def overwrite (buf : ByteArray) (pos : Nat) (patch : ByteArray) : ByteArray :=
  patch.copySlice 0 buf pos patch.size

theorem room_eq_ok {n : Nat} : room n = .ok () ↔ n < limit := by
  unfold room
  split
  · next h => exact ⟨fun _ => h, fun _ => rfl⟩
  · next h => exact ⟨nofun, fun hn => absurd hn h⟩

theorem data_extend (buf : ByteArray) (n : Nat) :
    (extend buf n).data = buf.data ++ Array.replicate n 0 := by
  have pages (k m : Nat) : (Nat.repeat (· ++ page) k (buf ++ ⟨Array.replicate m 0⟩)).data =
      buf.data ++ Array.replicate (m + 4096 * k) 0 := by
    induction k with
    | zero => exact ByteArray.data_append
    | succ k ih =>
      rw [Nat.repeat, ByteArray.data_append, ih, page, Array.append_assoc,
        Array.replicate_append_replicate, Nat.mul_succ, Nat.add_assoc]
  rw [extend, pages, Nat.mod_add_div]

theorem size_extend (buf : ByteArray) (n : Nat) : (extend buf n).size = buf.size + n := by
  rw [← ByteArray.size_data, data_extend, Array.size_append, Array.size_replicate,
    ByteArray.size_data]

theorem data_zeros (n : Nat) : (zeros n).data = Array.replicate n 0 :=
  (data_extend .empty n).trans Array.empty_append

theorem size_zeros (n : Nat) : (zeros n).size = n :=
  (size_extend .empty n).trans (Nat.zero_add n)

theorem size_grow (buf : ByteArray) (n : Nat) : (grow buf n).size = max buf.size n := by
  rw [grow, size_extend]
  omega

theorem size_slice {buf : ByteArray} {start len : Nat} (h : start + len ≤ buf.size) :
    (slice buf start len).size = len := by
  rw [slice, ByteArray.size_extract]
  omega

theorem size_overwrite {buf patch : ByteArray} {pos : Nat} (h : pos + patch.size ≤ buf.size) :
    (overwrite buf pos patch).size = buf.size := by
  rw [overwrite, ByteArray.copySlice_eq_append]
  simp only [ByteArray.size_append, ByteArray.size_extract, ByteArray.size_data]
  omega

theorem getElem_overwrite {buf patch : ByteArray} {pos i : Nat} (h : pos + patch.size ≤ buf.size)
    (hi : i < (overwrite buf pos patch).size) (hb : i < buf.size) :
    (overwrite buf pos patch)[i] =
      if hp : pos ≤ i ∧ i - pos < patch.size then patch[i - pos] else buf[i] := by
  have hl : (buf.extract 0 pos).size = pos := by
    rw [ByteArray.size_extract]
    omega
  have hm : (patch.extract 0 (0 + patch.size)).size = patch.size := by
    rw [ByteArray.size_extract]
    omega
  simp only [overwrite, ByteArray.copySlice_eq_append]
  split
  · rw [ByteArray.getElem_append_left (by rw [ByteArray.size_append]; omega),
      ByteArray.getElem_append_right (by omega), ByteArray.getElem_extract]
    simp only [hl, Nat.zero_add]
  · by_cases hs : i < pos
    · rw [ByteArray.getElem_append_left (by rw [ByteArray.size_append]; omega),
        ByteArray.getElem_append_left (by omega), ByteArray.getElem_extract]
      simp only [Nat.zero_add]
    · have hz : patch.data.size = patch.size := rfl
      have hn : pos + min patch.size (patch.size - 0) + (i - (pos + patch.size)) = i := by omega
      rw [ByteArray.getElem_append_right (by rw [ByteArray.size_append]; omega),
        ByteArray.getElem_extract]
      simp only [ByteArray.size_append, hl, hm, hz, hn]

end BlockStore.Bytes
