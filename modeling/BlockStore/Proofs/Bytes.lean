import BlockStore.Bytes
import BlockStore.LittleEndian
import Mathlib

namespace BlockStore

namespace LittleEndian

/-- How many numbers `width` bytes can tell apart. -/
def span : Nat → Nat
  | 0 => 1
  | width + 1 => 256 * span width

theorem decode_encode {width n : Nat} (h : n < span width) : decode (encode width n) = n := by
  induction width generalizing n with
  | zero =>
    have : n = 0 := Nat.lt_one_iff.1 h
    subst this
    rfl
  | succ width ih =>
    have hrest : n / 256 < span width := Nat.div_lt_of_lt_mul h
    have hlow : n.toUInt8.toNat = n % 256 := rfl
    simp only [encode, decode, ih hrest, hlow]
    omega

theorem decode_encode32 (x : UInt32) : decode (encode 4 x.toNat) = x.toNat :=
  decode_encode x.toNat_lt

theorem decode_encode64 (x : UInt64) : decode (encode 8 x.toNat) = x.toNat :=
  decode_encode x.toNat_lt

theorem field_skip {pre rest : List UInt8} {pos width : Nat} (h : pre.length ≤ pos) :
    field (pre ++ rest) pos width = field rest (pos - pre.length) width := by
  rw [field, List.drop_append, List.drop_of_length_le h, List.nil_append, field]

theorem field_encode (width n : Nat) (rest : List UInt8) :
    field (encode width n ++ rest) 0 width = decode (encode width n) := by
  rw [field, List.drop_zero, List.take_left' (length_encode ..)]

theorem field_encode_last (width n : Nat) :
    field (encode width n) 0 width = decode (encode width n) := by
  have h := field_encode width n []
  rwa [List.append_nil] at h

theorem decode_lt (bytes : List UInt8) : decode bytes < span bytes.length := by
  induction bytes with
  | nil => exact Nat.one_pos
  | cons b bs ih =>
    have hb := b.toNat_lt
    rw [decode, List.length_cons, span]
    omega

section

variable {record : List UInt8} {pos width : Nat}

theorem length_take_drop (h : pos + width ≤ record.length) :
    ((record.drop pos).take width).length = width := by
  rw [List.length_take, List.length_drop]
  omega

theorem field_lt (h : pos + width ≤ record.length) : field record pos width < span width := by
  have hlt := decode_lt ((record.drop pos).take width)
  rwa [length_take_drop h] at hlt

/-- A number that was read is stored as the bytes it was read from. -/
theorem encode_field (h : pos + width ≤ record.length) :
    encode width (field record pos width) = (record.drop pos).take width := by
  have hbytes := encode_decode ((record.drop pos).take width)
  rwa [length_take_drop h] at hbytes

theorem encode_field32 (h : pos + 4 ≤ record.length) :
    encode 4 (field record pos 4).toUInt32.toNat = (record.drop pos).take 4 := by
  rw [← encode_field h]
  exact congrArg (encode 4) (UInt32.toNat_ofNat_of_lt' (field_lt h))

theorem encode_field64 (h : pos + 8 ≤ record.length) :
    encode 8 (field record pos 8).toUInt64.toNat = (record.drop pos).take 8 := by
  rw [← encode_field h]
  exact congrArg (encode 8) (UInt64.toNat_ofNat_of_lt' (field_lt h))

end

end LittleEndian

namespace Bytes

variable {b patch data : ByteArray} {pos start len n i : Nat}

theorem ext_toList {a b : ByteArray} (h : toList a = toList b) : a = b := by
  cases a
  cases b
  exact congrArg ByteArray.mk (Array.toList_inj.1 h)

@[simp] theorem length_toList (b : ByteArray) : (toList b).length = b.size := rfl

@[simp] theorem toList_empty : toList .empty = [] := rfl

@[simp] theorem toList_ofList (bytes : List UInt8) : toList (ofList bytes) = bytes := rfl

@[simp] theorem size_ofList (bytes : List UInt8) : (ofList bytes).size = bytes.length := rfl

@[simp] theorem toList_append (a b : ByteArray) : toList (a ++ b) = toList a ++ toList b := by
  rw [toList, ByteArray.data_append, Array.toList_append, toList, toList]

theorem toList_extract (b : ByteArray) (start stop : Nat) :
    toList (b.extract start stop) = ((toList b).take stop).drop start := by
  rw [toList, ByteArray.data_extract, Array.toList_extract, toList, List.extract_eq_take_drop,
    List.drop_take]

@[simp] theorem toList_slice (b : ByteArray) (start len : Nat) :
    toList (slice b start len) = ((toList b).drop start).take len := by
  rw [slice, toList_extract, List.drop_take, Nat.add_sub_cancel_left]

@[simp] theorem toList_extend (b : ByteArray) (n : Nat) :
    toList (extend b n) = toList b ++ List.replicate n 0 := by
  rw [toList, data_extend, Array.toList_append, Array.toList_replicate, toList]

@[simp] theorem toList_grow (b : ByteArray) (n : Nat) :
    toList (grow b n) = toList b ++ List.replicate (n - b.size) 0 := toList_extend b _

@[simp] theorem toList_zeros (n : Nat) : toList (zeros n) = List.replicate n 0 := by
  rw [toList, data_zeros, Array.toList_replicate]

theorem toList_overwrite (b : ByteArray) (pos : Nat) (patch : ByteArray) :
    toList (overwrite b pos patch) =
      (toList b).take pos ++ toList patch ++ (toList b).drop (pos + patch.size) := by
  have hz : patch.data.size = patch.size := rfl
  have hb : (toList b).take b.data.size = toList b := List.take_of_length_le (Nat.le_refl _)
  have hp : (toList patch).take patch.size = toList patch := List.take_of_length_le (Nat.le_refl _)
  rw [overwrite, ByteArray.copySlice_eq_append]
  simp only [toList_append, toList_extract, Nat.zero_add, List.drop_zero, hz, Nat.sub_zero,
    Nat.min_self, hb, hp]

theorem slice_zero (b : ByteArray) (pos : Nat) : slice b pos 0 = .empty :=
  ext_toList (by simp)

/-- An empty patch changes nothing. -/
theorem overwrite_of_size_eq_zero (hp : patch.size = 0) : overwrite b pos patch = b := by
  have hnil : toList patch = [] := List.length_eq_zero_iff.1 hp
  refine ext_toList ?_
  rw [toList_overwrite, hp, hnil, List.append_nil, Nat.add_zero, List.take_append_drop]

theorem getElem_grow (h : i < (grow b n).size) :
    (grow b n)[i] = if h : i < b.size then b[i] else 0 := by
  have hz : b.data.size = b.size := rfl
  simp only [grow, ByteArray.getElem_eq_getElem_data, data_extend, Array.getElem_append,
    Array.getElem_replicate, hz]

/-- From `pos` on, `b` reads as `data`. -/
def Holds (b : ByteArray) (pos : Nat) (data : ByteArray) : Prop :=
  pos + data.size ≤ b.size ∧ slice b pos data.size = data

theorem holds_iff : Holds b pos data ↔ pos + data.size ≤ b.size ∧
    ∀ i, i < data.size → (toList b)[pos + i]? = (toList data)[i]? := by
  refine and_congr_right fun hle => ⟨fun h i hi => ?_, fun h => ext_toList ?_⟩
  · rw [← h]
    simp [List.getElem?_drop, hi]
  · refine List.ext_getElem? fun i => ?_
    rw [toList_slice, List.getElem?_take, List.getElem?_drop]
    split
    · next hi => exact h i hi
    · next hi => exact (List.getElem?_eq_none (by simp; omega)).symm

theorem Holds.part (h : Holds b pos data) (hle : start + len ≤ data.size) :
    Holds b (pos + start) (slice data start len) := by
  obtain ⟨hend, heq⟩ := h
  have hs := size_slice hle
  refine ⟨by omega, ext_toList ?_⟩
  rw [hs, ← heq]
  simp only [toList_slice, List.drop_take, List.drop_drop, List.take_take]
  rw [Nat.min_eq_left (by omega)]

end Bytes

end BlockStore
