import BlockStore.Bytes

namespace BlockStore

/-- Bytes of which only the pieces that were written are held, the newest first. All others are
zero. -/
structure Sparse where
  pieces : List (Nat × ByteArray) := []
  length : Nat := 0

namespace Sparse

def ofBytes (bytes : ByteArray) : Sparse := ⟨[(0, bytes)], bytes.size⟩

/-- Lays a piece over `buf`, which holds the bytes from `pos` on. -/
def lay (pos : Nat) (piece : Nat × ByteArray) (buf : ByteArray) : ByteArray :=
  let start := max piece.1 pos
  let stop := min (piece.1 + piece.2.size) (pos + buf.size)
  if start < stop then
    Bytes.overwrite buf (start - pos) (piece.2.extract (start - piece.1) (stop - piece.1))
  else buf

def slice (s : Sparse) (pos len : Nat) : ByteArray := s.pieces.foldr (lay pos) (Bytes.zeros len)

def toBytes (s : Sparse) : ByteArray := s.slice 0 s.length

/-- Puts `patch` in place of the bytes from `pos` on. Pieces that it covers are given up. -/
def overwrite (s : Sparse) (pos : Nat) (patch : ByteArray) : Sparse where
  pieces := (pos, patch) ::
    s.pieces.filter fun p => p.1 < pos || pos + patch.size < p.1 + p.2.size
  length := max s.length (pos + patch.size)

def resize (s : Sparse) (length : Nat) : Sparse where
  pieces := (s.pieces.map fun p => (p.1, p.2.extract 0 (length - p.1))).filter (0 < ·.2.size)
  length := length

/-- Byte `i` as the first piece that holds it has it. -/
def byteIn : List (Nat × ByteArray) → Nat → UInt8
  | [], _ => 0
  | p :: ps, i => if h : p.1 ≤ i ∧ i - p.1 < p.2.size then p.2[i - p.1] else byteIn ps i

def byte (s : Sparse) (i : Nat) : UInt8 := byteIn s.pieces i

theorem size_lay (pos : Nat) (piece : Nat × ByteArray) (buf : ByteArray) :
    (lay pos piece buf).size = buf.size := by
  unfold lay
  extract_lets start stop
  split
  · refine Bytes.size_overwrite ?_
    rw [ByteArray.size_extract]
    omega
  · rfl

theorem size_slice (s : Sparse) (pos len : Nat) : (s.slice pos len).size = len := by
  unfold slice
  induction s.pieces with
  | nil => exact Bytes.size_zeros len
  | cons piece pieces ih => exact (size_lay pos piece _).trans ih

theorem size_toBytes (s : Sparse) : s.toBytes.size = s.length := s.size_slice 0 s.length

theorem getElem_lay {pos : Nat} {p : Nat × ByteArray} {buf : ByteArray} {k : Nat}
    (hk : k < (lay pos p buf).size) (hb : k < buf.size) :
    (lay pos p buf)[k] =
      if h : p.1 ≤ pos + k ∧ pos + k - p.1 < p.2.size then p.2[pos + k - p.1] else buf[k] := by
  simp only [lay]
  split
  · rw [Bytes.getElem_overwrite (by rw [ByteArray.size_extract]; omega) _ hb]
    simp only [ByteArray.size_extract, ByteArray.getElem_extract]
    by_cases hp : p.1 ≤ pos + k ∧ pos + k - p.1 < p.2.size
    · have hn : max p.1 pos - p.1 + (k - (max p.1 pos - pos)) = pos + k - p.1 := by omega
      rw [dif_pos hp, dif_pos (by omega)]
      simp only [hn]
    · rw [dif_neg hp, dif_neg (by omega)]
  · rw [dif_neg (by omega)]

theorem getElem_slice {s : Sparse} {pos len k : Nat} (hk : k < (s.slice pos len).size) :
    (s.slice pos len)[k] = s.byte (pos + k) := by
  unfold slice at hk ⊢
  unfold byte
  generalize s.pieces = pieces at hk ⊢
  induction pieces with
  | nil =>
    rw [byteIn]
    simp only [List.foldr_nil, ByteArray.getElem_eq_getElem_data, Bytes.data_zeros,
      Array.getElem_replicate]
  | cons p ps ih =>
    have hb := size_lay pos p _ ▸ hk
    rw [byteIn, ← ih hb]
    exact getElem_lay hk hb

/-- A piece that does not hold byte `i` can be given up. -/
theorem byteIn_filter {ps : List (Nat × ByteArray)} {i : Nat} {keep : Nat × ByteArray → Bool}
    (h : ∀ p ∈ ps, p.1 ≤ i → i - p.1 < p.2.size → keep p) : byteIn (ps.filter keep) i = byteIn ps i := by
  induction ps with
  | nil => rfl
  | cons p ps ih =>
    have hp := h p List.mem_cons_self
    have ih := ih fun q hq => h q (List.mem_cons_of_mem p hq)
    rw [List.filter_cons]
    split
    · rw [byteIn, byteIn, ih]
    · next hk => rw [ih, byteIn, dif_neg fun hi => hk (hp hi.1 hi.2)]

theorem byte_overwrite (s : Sparse) (pos : Nat) (patch : ByteArray) (i : Nat) :
    (s.overwrite pos patch).byte i =
      if h : pos ≤ i ∧ i - pos < patch.size then patch[i - pos] else s.byte i := by
  rw [byte, byte, overwrite, byteIn]
  dsimp only
  split
  · rfl
  · refine byteIn_filter fun p _ _ _ => ?_
    simp only [Bool.or_eq_true, decide_eq_true_eq]
    omega

theorem byte_resize (s : Sparse) (n i : Nat) :
    (s.resize n).byte i = if i < n then s.byte i else 0 := by
  rw [byte, byte, resize, byteIn_filter fun p _ _ hp => decide_eq_true (by omega)]
  induction s.pieces with
  | nil => exact (ite_self 0).symm
  | cons p ps ih =>
    simp only [List.map_cons, byteIn, ByteArray.size_extract, ByteArray.getElem_extract, ih,
      Nat.zero_add]
    by_cases hp : p.1 ≤ i ∧ i - p.1 < p.2.size
    · by_cases hi : i < n
      · rw [dif_pos (by omega), if_pos hi, dif_pos hp]
      · rw [dif_neg (by omega), if_neg hi, if_neg hi]
    · rw [dif_neg (by omega), dif_neg hp]

end Sparse

end BlockStore
