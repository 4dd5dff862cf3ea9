import BlockStore.Checksum
import BlockStore.Proofs.Bytes

namespace BlockStore.Checksum

open LittleEndian

variable {r s : UInt32} {a b : List UInt8} {n : Nat}

theorem and_one_eq_one (r : UInt32) : r &&& 1 = 1 ↔ r.toNat % 2 = 1 := by
  rw [← UInt32.toNat_inj, UInt32.toNat_and]
  exact Eq.congr_left (Nat.and_one_is_mod _)

theorem shift_of_even (h : r.toNat % 2 = 0) : shift r = r >>> 1 := by
  rw [shift, if_neg fun h1 => by have := (and_one_eq_one r).1 h1; omega]

theorem shift_of_odd (h : r.toNat % 2 = 1) : shift r = r >>> 1 ^^^ 0xEDB88320 := by
  rw [shift, if_pos ((and_one_eq_one r).2 h)]

theorem toNat_shift_of_even (h : r.toNat % 2 = 0) : (shift r).toNat = r.toNat / 2 := by
  rw [shift_of_even h, UInt32.toNat_shiftRight]
  exact Nat.shiftRight_one _

/-- A step is linear in the register, since the polynomial comes in by its low bit alone. -/
theorem shift_xor (r s : UInt32) : shift (r ^^^ s) = shift r ^^^ shift s := by
  have hbit : (r ^^^ s).toNat % 2 = (r.toNat + s.toNat) % 2 := by
    rw [UInt32.toNat_xor, Nat.xor_mod_two_eq]
  rcases Nat.mod_two_eq_zero_or_one r.toNat with hr | hr <;>
    rcases Nat.mod_two_eq_zero_or_one s.toNat with hs | hs
  · rw [shift_of_even (by omega), shift_of_even hr, shift_of_even hs, UInt32.shiftRight_xor]
  · rw [shift_of_odd (by omega), shift_of_even hr, shift_of_odd hs, UInt32.shiftRight_xor,
      UInt32.xor_assoc]
  · rw [shift_of_odd (by omega), shift_of_odd hr, shift_of_even hs, UInt32.shiftRight_xor,
      UInt32.xor_assoc, UInt32.xor_assoc, UInt32.xor_comm (s >>> 1)]
  · rw [shift_of_even (by omega), shift_of_odd hr, shift_of_odd hs, UInt32.shiftRight_xor,
      UInt32.xor_comm (s >>> 1), UInt32.xor_assoc, ← UInt32.xor_assoc _ _ (s >>> 1),
      UInt32.xor_self, UInt32.zero_xor]

/-- The polynomial has the top bit, which no halved register has: nothing is cancelled. -/
theorem eq_zero_of_shift (h : shift r = 0) : r = 0 := by
  have hlt := r.toNat_lt
  have hhalf : (r >>> 1).toNat = r.toNat / 2 := by
    rw [UInt32.toNat_shiftRight]
    exact Nat.shiftRight_one _
  apply UInt32.toNat_inj.1
  rcases Nat.mod_two_eq_zero_or_one r.toNat with hr | hr
  · rw [shift_of_even hr] at h
    have h0 : (r >>> 1).toNat = 0 := congrArg UInt32.toNat h
    rw [UInt32.toNat_zero]
    omega
  · rw [shift_of_odd hr, UInt32.xor_eq_zero_iff] at h
    have hp : (r >>> 1).toNat = 0xEDB88320 := congrArg UInt32.toNat h
    omega

theorem shift_injective : Function.Injective shift := by
  intro r s h
  have hz : shift (r ^^^ s) = 0 := by rw [shift_xor, h, UInt32.xor_self]
  exact UInt32.xor_eq_zero_iff.1 (eq_zero_of_shift hz)

theorem shifts_xor (n : Nat) (r s : UInt32) :
    shift^[n] (r ^^^ s) = shift^[n] r ^^^ shift^[n] s :=
  Function.Semiconj₂.iterate shift_xor n r s

theorem toNat_shifts (h : 2 ^ n ∣ r.toNat) : (shift^[n] r).toNat = r.toNat / 2 ^ n := by
  induction n generalizing r with
  | zero => exact (Nat.div_one _).symm
  | succ n ih =>
    obtain ⟨k, hk⟩ := h
    have hk2 : r.toNat = 2 * (2 ^ n * k) := by rw [hk, Nat.pow_succ', Nat.mul_assoc]
    have hs : (shift r).toNat = 2 ^ n * k := by
      rw [toNat_shift_of_even (by omega), hk2]
      omega
    rw [Function.iterate_succ_apply, ih ⟨k, hs⟩, hs, hk, Nat.mul_div_cancel_left k (by positivity),
      Nat.mul_div_cancel_left k (by positivity)]

theorem absorb_eq (r : UInt32) (b : UInt8) : absorb r b = shift^[8] (r ^^^ b.toUInt32) := rfl

theorem foldl_absorb_injective (a : List UInt8) : Function.Injective (a.foldl absorb) := by
  have habsorb (b : UInt8) : Function.Injective (absorb · b) := fun r s h =>
    (UInt32.xor_left_inj _).1 (shift_injective.iterate 8 h)
  induction a with
  | nil => exact Function.injective_id
  | cons b a ih => exact ih.comp (habsorb b)

theorem decode_lt (a : List UInt8) : decode a < 2 ^ (8 * a.length) := by
  induction a with
  | nil => exact Nat.one_pos
  | cons b a ih =>
    have hb := b.toNat_lt
    rw [decode, List.length_cons, Nat.mul_succ, Nat.pow_add]
    omega

theorem decode_cons (b : UInt8) (h : decode a < 2 ^ 24) :
    (decode (b :: a)).toUInt32 = b.toUInt32 ^^^ (2 ^ 8 * decode a).toUInt32 := by
  have hb : b.toNat < 2 ^ 8 := b.toNat_lt
  apply UInt32.toNat_inj.1
  rw [UInt32.toNat_xor, UInt8.toNat_toUInt32, Nat.toUInt32_eq, Nat.toUInt32_eq,
    UInt32.toNat_ofNat_of_lt' (by rw [decode]; norm_num [UInt32.size]; omega),
    UInt32.toNat_ofNat_of_lt' (by norm_num [UInt32.size]; omega)]
  -- the byte lies below the bits of the others
  refine Nat.eq_of_testBit_eq fun i => ?_
  rw [decode, Nat.add_comm, Nat.testBit_two_pow_mul_add _ hb, Nat.testBit_xor,
    Nat.testBit_two_pow_mul]
  split
  · next hi => rw [decide_eq_false (by omega), Bool.false_and, Bool.xor_false]
  · next hi =>
    rw [Nat.testBit_lt_two_pow (hb.trans_le (Nat.pow_le_pow_right Nat.two_pos (by omega))),
      decide_eq_true (by omega), Bool.true_and, Bool.false_xor]

/-- At most four bytes come into the register as one word. -/
theorem foldl_absorb_eq (h : a.length ≤ 4) :
    a.foldl absorb r = shift^[8 * a.length] (r ^^^ (decode a).toUInt32) := by
  induction a generalizing r with
  | nil => exact (UInt32.xor_zero).symm
  | cons b a ih =>
    have hlen : a.length ≤ 3 := Nat.le_of_succ_le_succ h
    have hlt : decode a < 2 ^ 24 :=
      (decode_lt a).trans_le (Nat.pow_le_pow_right Nat.two_pos (Nat.mul_le_mul_left 8 hlen))
    -- eight steps bring the later bytes down to where they are absorbed
    have hdown : shift^[8] (2 ^ 8 * decode a).toUInt32 = (decode a).toUInt32 := by
      apply UInt32.toNat_inj.1
      have hn : (2 ^ 8 * decode a).toUInt32.toNat = 2 ^ 8 * decode a :=
        UInt32.toNat_ofNat_of_lt' (by norm_num [UInt32.size]; omega)
      rw [toNat_shifts ⟨_, hn⟩, hn, Nat.mul_div_cancel_left _ (by positivity)]
      exact (UInt32.toNat_ofNat_of_lt' (by norm_num [UInt32.size]; omega)).symm
    rw [List.foldl_cons, ih (by omega), absorb_eq, ← hdown, ← shifts_xor, UInt32.xor_assoc,
      ← decode_cons b hlt, ← Function.iterate_add_apply, List.length_cons, Nat.mul_succ]

theorem foldl_absorb_inj (hlen : a.length = b.length) (h : a.length ≤ 4)
    (heq : a.foldl absorb r = b.foldl absorb r) : a = b := by
  rw [foldl_absorb_eq h, foldl_absorb_eq (hlen ▸ h), ← hlen] at heq
  have hword : (decode a).toUInt32 = (decode b).toUInt32 :=
    (UInt32.xor_right_inj r).1 (shift_injective.iterate _ heq)
  have hlt {c : List UInt8} (hc : c.length ≤ 4) : decode c < UInt32.size :=
    (decode_lt c).trans_le (Nat.pow_le_pow_right Nat.two_pos (Nat.mul_le_mul_left 8 hc))
  have hnum : decode a = decode b := by
    have := congrArg UInt32.toNat hword
    rwa [Nat.toUInt32_eq, Nat.toUInt32_eq, UInt32.toNat_ofNat_of_lt' (hlt h),
      UInt32.toNat_ofNat_of_lt' (hlt (hlen ▸ h))] at this
  rw [← encode_decode a, ← encode_decode b, hlen, hnum]

/-- What the register holds after `bytes`. -/
def register (bytes : List UInt8) : UInt32 := bytes.foldl absorb 0xFFFFFFFF

/-- What it holds once the checksum of the bytes has been absorbed behind them. -/
def residue : UInt32 := shift^[32] 0xFFFFFFFF

theorem register_eq_residue (h : a.length = n + 4) :
    register a = residue ↔ (field a n 4).toUInt32 = crc32 (a.take n) := by
  have hlen : (a.drop n).length = 4 := by rw [List.length_drop, h, Nat.add_sub_cancel_left]
  have hr : register a = shift^[32] (register (a.take n) ^^^ (field a n 4).toUInt32) := by
    rw [field, List.take_of_length_le hlen.le, register]
    conv_lhs => rw [← List.take_append_drop n a]
    rw [List.foldl_append, foldl_absorb_eq hlen.le, hlen, register]
  rw [hr, residue, (shift_injective.iterate 32).eq_iff]
  change _ ↔ _ = register (a.take n) ^^^ 0xFFFFFFFF
  rw [← UInt32.xor_right_inj (register (a.take n)), ← UInt32.xor_assoc, UInt32.xor_self,
    UInt32.zero_xor]

example : register ([49, 50, 51, 52, 53, 54, 55, 56, 57] ++ encode 4 0xCBF43926) = residue := by
  decide +kernel

/-- `b` is `a`, but for other bytes in a window of four. -/
structure Burst (a b : List UInt8) : Prop where
  length_eq : b.length = a.length
  window : ∃ pos, ∀ i, i < pos ∨ pos + 4 ≤ i → b[i]? = a[i]?

namespace Burst

theorem set (a : List UInt8) (i : Nat) (x : UInt8) : Burst a (a.set i x) :=
  ⟨List.length_set, i, fun _ hj => List.getElem?_set_ne (by omega)⟩

theorem take (h : Burst a b) (n : Nat) : Burst (a.take n) (b.take n) := by
  obtain ⟨pos, hsame⟩ := h.window
  refine ⟨by rw [List.length_take, List.length_take, h.length_eq], pos, fun i hi => ?_⟩
  rw [List.getElem?_take, List.getElem?_take, hsame i hi]

theorem drop (h : Burst a b) (n : Nat) : Burst (a.drop n) (b.drop n) := by
  obtain ⟨pos, hsame⟩ := h.window
  refine ⟨by rw [List.length_drop, List.length_drop, h.length_eq], pos - n, fun i hi => ?_⟩
  rw [List.getElem?_drop, List.getElem?_drop, hsame _ (by omega)]

/-- The register tells a burst from what was there: it takes in the window as one word, and
every later byte keeps different registers apart. -/
theorem eq_of_register (h : Burst a b) (heq : register a = register b) : a = b := by
  obtain ⟨pos, hsame⟩ := h.window
  have hfront : b.take pos = a.take pos := by
    refine List.ext_getElem? fun i => ?_
    rw [List.getElem?_take, List.getElem?_take]
    split
    · next hi => exact hsame i (.inl hi)
    · rfl
  have hrear : b.drop (pos + 4) = a.drop (pos + 4) := by
    refine List.ext_getElem? fun i => ?_
    rw [List.getElem?_drop, List.getElem?_drop, hsame _ (.inr (by omega))]
  have hsplit (c : List UInt8) : c.take pos ++ ((c.drop pos).take 4 ++ c.drop (pos + 4)) = c := by
    rw [← List.drop_drop, List.take_append_drop, List.take_append_drop]
  rw [register, register, ← hsplit a, ← hsplit b, hfront, hrear, List.foldl_append,
    List.foldl_append, List.foldl_append, List.foldl_append] at heq
  have hwindow : (a.drop pos).take 4 = (b.drop pos).take 4 := by
    refine foldl_absorb_inj ?_ (List.length_take_le _ _) (foldl_absorb_injective _ heq)
    rw [List.length_take, List.length_take, List.length_drop, List.length_drop, h.length_eq]
  rw [← hsplit a, ← hsplit b, hfront, hrear, hwindow]

/-- Two places with a window's length between them are not both hit. -/
theorem spares (h : Burst a b) {i j n : Nat} (hij : i + n + 4 ≤ j + 1) :
    (b.drop i).take n = (a.drop i).take n ∨ b.drop j = a.drop j := by
  obtain ⟨pos, hsame⟩ := h.window
  rcases Nat.lt_or_ge pos (i + n) with hin | hin
  · refine .inr (List.ext_getElem? fun k => ?_)
    rw [List.getElem?_drop, List.getElem?_drop, hsame _ (.inr (by omega))]
  · refine .inl (List.ext_getElem? fun k => ?_)
    rw [List.getElem?_take, List.getElem?_take, List.getElem?_drop, List.getElem?_drop]
    split
    · next hk => exact hsame _ (.inl (by omega))
    · rfl

end Burst

end BlockStore.Checksum
