import BlockStore.Bitmap
import Mathlib

namespace BlockStore.Bitmap

theorem toNat_shift {k : Nat} (hk : k < 64) : (k.toUInt64.toBitVec % 64).toNat = k := by
  have hw : (64 : BitVec 64).toNat = 64 := rfl
  have hn : k.toUInt64.toNat = k := UInt64.toNat_ofNat_of_lt' (by simp only [UInt64.size]; omega)
  rw [BitVec.toNat_umod, UInt64.toNat_toBitVec, hw, hn]
  omega

theorem bit_eq_getLsbD {w : UInt64} {k : Nat} (hk : k < 64) : bit w k = w.toBitVec.getLsbD k := by
  have ht : (w >>> k.toUInt64 &&& 1 : UInt64).toBitVec = (w.toBitVec >>> k) &&& 1#64 := by
    rw [UInt64.toBitVec_and, UInt64.toBitVec_shiftRight, BitVec.ushiftRight_eq', toNat_shift hk]
    rfl
  have hb : bit w k = true ↔ w.toBitVec.getLsbD k = true := by
    rw [bit, beq_iff_eq, ← UInt64.toBitVec_inj, ht]
    constructor
    · intro h
      have := congrArg (BitVec.getLsbD · 0) h
      simpa using this
    · intro h
      apply BitVec.eq_of_getLsbD_eq
      intro i hi
      by_cases h0 : i = 0
      · subst i
        simpa using h
      · simp [BitVec.getLsbD_one, h0]
  exact Bool.eq_iff_iff.2 hb

theorem bit_zero (k : Nat) : bit 0 k = false := by
  simp [bit]

theorem bit_or {v w : UInt64} {k : Nat} (hk : k < 64) : bit (v ||| w) k = (bit v k || bit w k) := by
  simp [bit_eq_getLsbD hk]

theorem bit_and {v w : UInt64} {k : Nat} (hk : k < 64) : bit (v &&& w) k = (bit v k && bit w k) := by
  simp [bit_eq_getLsbD hk]

theorem bit_not {w : UInt64} {k : Nat} (hk : k < 64) : bit (~~~w) k = !bit w k := by
  simp [bit_eq_getLsbD hk, hk]

theorem bit_mask {lo hi k : Nat} (hhi : hi ≤ 64) (hk : k < 64) :
    bit (mask lo hi) k = decide (lo ≤ k ∧ k < hi) := by
  unfold mask
  split
  · next h =>
    have hones : (0xFFFFFFFFFFFFFFFF : UInt64).toBitVec = BitVec.allOnes 64 := rfl
    rw [bit_and hk, bit_eq_getLsbD hk, bit_eq_getLsbD hk, UInt64.toBitVec_shiftLeft,
      UInt64.toBitVec_shiftRight, BitVec.shiftLeft_eq', BitVec.ushiftRight_eq',
      toNat_shift (show lo < 64 by omega), hones, BitVec.getLsbD_shiftLeft,
      BitVec.getLsbD_ushiftRight, BitVec.getLsbD_allOnes, BitVec.getLsbD_allOnes]
    by_cases h64 : hi = 64
    · subst h64
      have hz : ((64 - 64 : Nat).toUInt64.toBitVec % 64).toNat = 0 := rfl
      rw [hz]
      apply Bool.eq_iff_iff.2
      simp only [Bool.and_eq_true, Bool.not_eq_true', decide_eq_true_eq, decide_eq_false_iff_not]
      omega
    · rw [toNat_shift (show 64 - hi < 64 by omega)]
      apply Bool.eq_iff_iff.2
      simp only [Bool.and_eq_true, Bool.not_eq_true', decide_eq_true_eq, decide_eq_false_iff_not]
      omega
  · rw [bit_zero]
    exact (decide_eq_false (by omega)).symm

theorem lowest?_eq_some {w : UInt64} {k b : Nat} (h : lowest? w k = some b) :
    k ≤ b ∧ b < 64 ∧ bit w b ∧ ∀ j, k ≤ j → j < b → bit w j = false := by
  fun_induction lowest? w k with
  | case1 k hk hb =>
    obtain rfl : k = b := Option.some.inj h
    exact ⟨Nat.le_refl _, hk, hb, fun j h1 h2 => absurd h1 (by omega)⟩
  | case2 k hk hb ih =>
    obtain ⟨h1, h2, h3, h4⟩ := ih h
    refine ⟨by omega, h2, h3, fun j hj hjb => ?_⟩
    by_cases he : j = k
    · simpa [he] using hb
    · exact h4 j (by omega) hjb
  | case3 => cases h

theorem lowest?_eq_none {w : UInt64} {k : Nat} (h : lowest? w k = none) :
    ∀ j, k ≤ j → j < 64 → bit w j = false := by
  fun_induction lowest? w k with
  | case1 => cases h
  | case2 k hk hb ih =>
    intro j hj h64
    by_cases he : j = k
    · simpa [he] using hb
    · exact ih h j (by omega) h64
  | case3 k hk => exact fun j hj h64 => absurd h64 (by omega)

theorem highest?_eq_some {w : UInt64} {k b : Nat} (h : highest? w k = some b) :
    b ≤ k ∧ bit w b ∧ ∀ j, b < j → j ≤ k → bit w j = false := by
  induction k with
  | zero =>
    unfold highest? at h
    split at h
    · next hb =>
      obtain rfl : 0 = b := Option.some.inj h
      exact ⟨Nat.le_refl _, hb, fun j h1 h2 => absurd h1 (by omega)⟩
    · exact nomatch h
  | succ k ih =>
    unfold highest? at h
    split at h
    · next hb =>
      obtain rfl : k + 1 = b := Option.some.inj h
      exact ⟨Nat.le_refl _, hb, fun j h1 h2 => absurd h1 (by omega)⟩
    · next hb =>
      obtain ⟨h1, h2, h3⟩ := ih h
      refine ⟨by omega, h2, fun j hj hjk => ?_⟩
      by_cases he : j = k + 1
      · simpa [he] using hb
      · exact h3 j hj (by omega)

theorem highest?_eq_none {w : UInt64} {k : Nat} (h : highest? w k = none) :
    ∀ j, j ≤ k → bit w j = false := by
  induction k with
  | zero =>
    unfold highest? at h
    split at h
    · exact nomatch h
    · next hb =>
      intro j hj
      obtain rfl : j = 0 := by omega
      simpa using hb
  | succ k ih =>
    unfold highest? at h
    split at h
    · exact nomatch h
    · next hb =>
      intro j hj
      by_cases he : j = k + 1
      · simpa [he] using hb
      · exact ih h j (by omega)

/-- Whether index `i` is set in `words`, seen through `view`. -/
def shown (view : UInt64 → UInt64) (words : Array UInt64) (i : Nat) : Bool :=
  bit (view (words.getD (i / 64) 0)) (i % 64)

theorem shown_add (view : UInt64 → UInt64) (words : Array UInt64) (i : Nat) {k : Nat} (hk : k < 64) :
    shown view words (64 * i + k) = bit (view (words.getD i 0)) k := by
  have h1 : (64 * i + k) / 64 = i := by omega
  have h2 : (64 * i + k) % 64 = k := by omega
  rw [shown, h1, h2]

variable {view : UInt64 → UInt64} {words : Array UInt64}

theorem seekUp_eq_some {i k j : Nat} (hk : k < 64) (h : seekUp view words i k = some j) :
    64 * i + k ≤ j ∧ j < 64 * words.size ∧ shown view words j ∧
      ∀ m, 64 * i + k ≤ m → m < j → shown view words m = false := by
  fun_induction seekUp view words i k with
  | case1 i k hi w b hb =>
    split at hb
    · cases hb
    · obtain ⟨h1, h2, h3, h4⟩ := lowest?_eq_some hb
      obtain rfl : 64 * i + b = j := Option.some.inj h
      have hw : words.getD i 0 = words[i] := by simp [hi]
      refine ⟨by omega, by omega, ?_, fun m hm hmj => ?_⟩
      · rw [shown_add _ _ _ h2, hw]
        exact h3
      · obtain ⟨c, rfl⟩ := Nat.exists_eq_add_of_le (show 64 * i ≤ m by omega)
        rw [shown_add _ _ _ (by omega), hw]
        exact h4 c (by omega) (by omega)
  | case2 i k hi w hb ih =>
    obtain ⟨h1, h2, h3, h4⟩ := ih (by omega) h
    refine ⟨by omega, h2, h3, fun m hm hmj => ?_⟩
    by_cases hlt : m < 64 * (i + 1)
    · have hw : words.getD i 0 = words[i] := by simp [hi]
      obtain ⟨c, rfl⟩ := Nat.exists_eq_add_of_le (show 64 * i ≤ m by omega)
      rw [shown_add _ _ _ (by omega), hw]
      split at hb
      · next h0 => rw [show view words[i] = 0 from h0, bit_zero]
      · exact lowest?_eq_none hb c (by omega) (by omega)
    · exact h4 m (by omega) hmj
  | case3 => cases h

theorem seekUp_eq_none {i k : Nat} (hk : k < 64) (h : seekUp view words i k = none) :
    ∀ m, 64 * i + k ≤ m → m < 64 * words.size → shown view words m = false := by
  fun_induction seekUp view words i k with
  | case1 => cases h
  | case2 i k hi w hb ih =>
    intro m hm hms
    by_cases hlt : m < 64 * (i + 1)
    · have hw : words.getD i 0 = words[i] := by simp [hi]
      obtain ⟨c, rfl⟩ := Nat.exists_eq_add_of_le (show 64 * i ≤ m by omega)
      rw [shown_add _ _ _ (by omega), hw]
      split at hb
      · next h0 => rw [show view words[i] = 0 from h0, bit_zero]
      · exact lowest?_eq_none hb c (by omega) (by omega)
    · exact ih (by omega) h m (by omega) hms
  | case3 i k hi => exact fun m hm hms => absurd hms (by omega)

theorem seekDown_eq_some {n k j : Nat} (hk : k < 64) (h : seekDown view words n k = some j) :
    j + 64 ≤ 64 * n + k ∧ shown view words j ∧
      ∀ m, j < m → m + 64 ≤ 64 * n + k → shown view words m = false := by
  fun_induction seekDown view words n k with
  | case1 => exact nomatch h
  | case2 n k w b hb =>
    split at hb
    · exact nomatch hb
    · obtain ⟨h1, h2, h3⟩ := highest?_eq_some hb
      obtain rfl : 64 * n + b = j := Option.some.inj h
      refine ⟨by omega, ?_, fun m hm hmk => ?_⟩
      · rw [shown_add _ _ _ (by omega)]
        exact h2
      · obtain ⟨c, rfl⟩ := Nat.exists_eq_add_of_le (show 64 * n ≤ m by omega)
        rw [shown_add _ _ _ (by omega)]
        exact h3 c (by omega) (by omega)
  | case3 n k w hb ih =>
    obtain ⟨h1, h2, h3⟩ := ih (by omega) h
    refine ⟨by omega, h2, fun m hm hmk => ?_⟩
    by_cases hlt : m < 64 * n
    · exact h3 m hm (by omega)
    · obtain ⟨c, rfl⟩ := Nat.exists_eq_add_of_le (show 64 * n ≤ m by omega)
      rw [shown_add _ _ _ (by omega)]
      split at hb
      · next h0 => rw [show view (words.getD n 0) = 0 from h0, bit_zero]
      · exact highest?_eq_none hb c (by omega)

theorem seekDown_eq_none {n k : Nat} (hk : k < 64) (h : seekDown view words n k = none) :
    ∀ m, m + 64 ≤ 64 * n + k → shown view words m = false := by
  fun_induction seekDown view words n k with
  | case1 => exact fun m hm => absurd hm (by omega)
  | case2 => exact nomatch h
  | case3 n k w hb ih =>
    intro m hm
    by_cases hlt : m < 64 * n
    · exact ih (by omega) h m (by omega)
    · obtain ⟨c, rfl⟩ := Nat.exists_eq_add_of_le (show 64 * n ≤ m by omega)
      rw [shown_add _ _ _ (by omega)]
      split at hb
      · next h0 => rw [show view (words.getD n 0) = 0 from h0, bit_zero]
      · exact highest?_eq_none hb c (by omega)

theorem getElem?_foldl_modify (g : Nat → UInt64 → UInt64) (start n j : Nat) (words : Array UInt64) :
    ((List.range' start n).foldl (fun ws i => ws.modify i (g i)) words)[j]? =
      if start ≤ j ∧ j < start + n then words[j]?.map (g j) else words[j]? := by
  induction n generalizing start words with
  | zero =>
    rw [if_neg (by omega)]
    rfl
  | succ n ih =>
    rw [List.range'_succ, List.foldl_cons, ih, Array.getElem?_modify]
    by_cases hs : start = j
    · subst hs
      rw [if_neg (by omega), if_pos rfl, if_pos (by omega)]
    · rw [if_neg hs]
      by_cases hj : start + 1 ≤ j ∧ j < start + 1 + n
      · rw [if_pos hj, if_pos (by omega)]
      · rw [if_neg hj, if_neg (by omega)]

theorem getD_update (f : UInt64 → UInt64 → UInt64) (lo hi j : Nat) (words : Array UInt64) :
    (update f lo hi words).getD j 0 =
      if lo / 64 ≤ j ∧ j < min ((hi + 63) / 64) words.size then
        f (words.getD j 0) (mask (lo - 64 * j) (min 64 (hi - 64 * j)))
      else words.getD j 0 := by
  rw [update, Array.getD_eq_getD_getElem?, getElem?_foldl_modify, Array.getD_eq_getD_getElem?]
  by_cases hj : lo / 64 ≤ j ∧ j < min ((hi + 63) / 64) words.size
  · have hs : j < words.size := by omega
    rw [if_pos (by omega), if_pos hj, Array.getElem?_eq_getElem hs]
    rfl
  · rw [if_neg (by omega), if_neg hj]

theorem getD_popWhile (words : Array UInt64) (j : Nat) :
    (words.popWhile (· == 0)).getD j 0 = words.getD j 0 := by
  fun_induction Array.popWhile (· == (0 : UInt64)) words with
  | case1 words h hz ih =>
    rw [ih, Array.getD_eq_getD_getElem?, Array.getD_eq_getD_getElem?, Array.getElem?_pop]
    by_cases hj : j = words.size - 1
    · subst hj
      rw [if_neg (by omega), Array.getElem?_eq_getElem (by omega)]
      exact (beq_iff_eq.1 hz).symm
    · by_cases hl : j < words.size - 1
      · rw [if_pos hl]
      · rw [if_neg hl, Array.getElem?_eq_none (by omega)]
  | case2 | case3 => rfl

theorem mem_iff {s : Bitmap} {i : Nat} : i ∈ s ↔ shown id s.words i := Iff.rfl

theorem not_mem_iff {s : Bitmap} {i : Nat} : i ∉ s ↔ shown id s.words i = false := by
  rw [mem_iff, Bool.not_eq_true]

theorem not_mem_of_size_le {s : Bitmap} {i : Nat} (h : 64 * s.words.size ≤ i) : i ∉ s := by
  have hd : s.words.getD (i / 64) 0 = 0 := by
    rw [Array.getD_eq_getD_getElem?, Array.getElem?_eq_none (by omega)]
    rfl
  rw [mem_iff, shown, hd, id, bit_zero]
  exact Bool.false_ne_true

theorem lt_of_mem {s : Bitmap} {i : Nat} (h : i ∈ s) : i < 64 * s.words.size :=
  Nat.lt_of_not_le fun hi => not_mem_of_size_le hi h

@[simp] theorem not_mem_empty (i : Nat) : i ∉ ({} : Bitmap) := not_mem_of_size_le (Nat.zero_le i)

@[simp] theorem mem_insertRange {s : Bitmap} {lo hi i : Nat} :
    i ∈ s.insertRange lo hi ↔ i ∈ s ∨ lo ≤ i ∧ i < hi := by
  unfold insertRange
  split
  · have hold : (s.words ++ Array.replicate ((hi + 63) / 64 - s.words.size) 0).getD (i / 64) 0 =
        s.words.getD (i / 64) 0 := by
      simp only [Array.getD_eq_getD_getElem?, Array.getElem?_append]
      split
      · rfl
      · rw [Array.getElem?_eq_none (show s.words.size ≤ i / 64 by omega), Array.getElem?_replicate]
        split <;> rfl
    have hsize : (s.words ++ Array.replicate ((hi + 63) / 64 - s.words.size) 0).size =
        max s.words.size ((hi + 63) / 64) := by
      rw [Array.size_append, Array.size_replicate]
      omega
    rw [mem_iff, mem_iff, shown, shown, getD_update, hold, hsize]
    split
    · rw [id, id, bit_or (by omega), bit_mask (by omega) (by omega), Bool.or_eq_true,
        decide_eq_true_eq]
      exact or_congr_right (by omega)
    · exact (or_iff_left (by omega)).symm
  · exact (or_iff_left (by omega)).symm

@[simp] theorem mem_eraseRange {s : Bitmap} {lo hi i : Nat} :
    i ∈ s.eraseRange lo hi ↔ i ∈ s ∧ ¬(lo ≤ i ∧ i < hi) := by
  unfold eraseRange
  split
  · rw [mem_iff, shown, getD_popWhile, getD_update]
    split
    · rw [id, bit_and (by omega), bit_not (by omega), bit_mask (by omega) (by omega), mem_iff,
        shown, id, Bool.and_eq_true, Bool.not_eq_true', decide_eq_false_iff_not]
      exact and_congr_right fun _ => by omega
    · refine ⟨fun h => ⟨h, fun hr => ?_⟩, fun h => h.1⟩
      exact not_mem_of_size_le (by omega) h
  · exact ⟨fun h => ⟨h, by omega⟩, fun h => h.1⟩

theorem next?_eq_some {s : Bitmap} {i j : Nat} (h : s.next? i = some j) :
    i ≤ j ∧ j ∈ s ∧ ∀ m, i ≤ m → m < j → m ∉ s := by
  obtain ⟨h1, _, h3, h4⟩ := seekUp_eq_some (by omega) h
  refine ⟨by omega, h3, fun m hm hmj hs => ?_⟩
  exact Bool.false_ne_true ((h4 m (by omega) hmj).symm.trans hs)

theorem next?_eq_none {s : Bitmap} {i : Nat} (h : s.next? i = none) : ∀ m, i ≤ m → m ∉ s := by
  intro m hm hs
  exact Bool.false_ne_true ((seekUp_eq_none (by omega) h m (by omega) (lt_of_mem hs)).symm.trans hs)

theorem shown_not {words : Array UInt64} {i : Nat} :
    shown (~~~ ·) words i = !shown id words i := bit_not (by omega)

theorem nextGap_not_mem (s : Bitmap) (i : Nat) : s.nextGap i ∉ s := by
  unfold nextGap
  cases h : seekUp (~~~ ·) s.words (i / 64) (i % 64) with
  | none => exact not_mem_of_size_le (Nat.le_max_right _ _)
  | some j =>
    obtain ⟨_, _, h3, _⟩ := seekUp_eq_some (by omega) h
    rw [shown_not, Bool.not_eq_true'] at h3
    rw [mem_iff, Option.getD_some, h3]
    exact Bool.false_ne_true

theorem mem_of_lt_nextGap {s : Bitmap} {i m : Nat} (hi : i ≤ m) (hm : m < s.nextGap i) : m ∈ s := by
  unfold nextGap at hm
  cases h : seekUp (~~~ ·) s.words (i / 64) (i % 64) with
  | none =>
    rw [h, Option.getD_none] at hm
    have := seekUp_eq_none (by omega) h m (by omega) (by omega)
    rwa [shown_not, Bool.not_eq_false'] at this
  | some j =>
    rw [h, Option.getD_some] at hm
    have := (seekUp_eq_some (by omega) h).2.2.2 m (by omega) hm
    rwa [shown_not, Bool.not_eq_false'] at this

theorem prev?_eq_some {s : Bitmap} {i j : Nat} (h : s.prev? i = some j) :
    j ≤ i ∧ j ∈ s ∧ ∀ m, j < m → m ≤ i → m ∉ s := by
  unfold prev? at h
  split at h
  · obtain ⟨h1, h2, h3⟩ := seekDown_eq_some (by omega) h
    exact ⟨by omega, h2, fun m hj hm => not_mem_iff.2 (h3 m hj (by omega))⟩
  · obtain ⟨h1, h2, h3⟩ := seekDown_eq_some (by omega) h
    refine ⟨by omega, h2, fun m hj hm hs => ?_⟩
    have hlt := lt_of_mem hs
    exact not_mem_iff.2 (h3 m hj (by omega)) hs

theorem prev?_eq_none {s : Bitmap} {i : Nat} (h : s.prev? i = none) : ∀ m, m ≤ i → m ∉ s := by
  intro m hm hs
  have hlt := lt_of_mem hs
  unfold prev? at h
  split at h
  · exact not_mem_iff.2 (seekDown_eq_none (by omega) h m (by omega)) hs
  · exact not_mem_iff.2 (seekDown_eq_none (by omega) h m (by omega)) hs

theorem prevGap?_eq_some {s : Bitmap} {i j : Nat} (h : s.prevGap? i = some j) :
    j ≤ i ∧ j ∉ s ∧ ∀ m, j < m → m ≤ i → m ∈ s := by
  unfold prevGap? at h
  split at h
  · obtain ⟨h1, h2, h3⟩ := seekDown_eq_some (by omega) h
    rw [shown_not, Bool.not_eq_true'] at h2
    refine ⟨by omega, not_mem_iff.2 h2, fun m hj hm => ?_⟩
    have hm := h3 m hj (by omega)
    rwa [shown_not, Bool.not_eq_false'] at hm
  · obtain rfl := Option.some.inj h
    exact ⟨Nat.le_refl _, not_mem_of_size_le (by omega), fun m hj hm => absurd hm (by omega)⟩

theorem prevGap?_eq_none {s : Bitmap} {i : Nat} (h : s.prevGap? i = none) : ∀ m, m ≤ i → m ∈ s := by
  unfold prevGap? at h
  split at h
  · intro m hm
    have hm := seekDown_eq_none (by omega) h m (by omega)
    rwa [shown_not, Bool.not_eq_false'] at hm
  · cases h

section

variable {s : Bitmap} {i j : Nat}

theorem next?_eq (hij : i ≤ j) (hj : j ∈ s) (hbefore : ∀ m, i ≤ m → m < j → m ∉ s) :
    s.next? i = some j := by
  cases h : s.next? i with
  | none => exact absurd hj (next?_eq_none h j hij)
  | some k =>
    obtain ⟨hik, hk, hleast⟩ := next?_eq_some h
    rcases Nat.lt_trichotomy j k with hlt | rfl | hlt
    · exact absurd hj (hleast j hij hlt)
    · rfl
    · exact absurd hk (hbefore k hik hlt)

theorem nextGap_eq (hij : i ≤ j) (hj : j ∉ s) (hbefore : ∀ m, i ≤ m → m < j → m ∈ s) :
    s.nextGap i = j := by
  rcases Nat.lt_trichotomy j (s.nextGap i) with hlt | heq | hlt
  · exact absurd (mem_of_lt_nextGap hij hlt) hj
  · exact heq.symm
  · exact absurd (hbefore _ (s.le_nextGap i) hlt) (s.nextGap_not_mem i)

theorem prev?_eq (hij : j ≤ i) (hj : j ∈ s) (hafter : ∀ m, j < m → m ≤ i → m ∉ s) :
    s.prev? i = some j := by
  cases h : s.prev? i with
  | none => exact absurd hj (prev?_eq_none h j hij)
  | some k =>
    obtain ⟨hki, hk, hgreatest⟩ := prev?_eq_some h
    rcases Nat.lt_trichotomy j k with hlt | rfl | hlt
    · exact absurd hk (hafter k hlt hki)
    · rfl
    · exact absurd hj (hgreatest j hlt hij)

theorem prevGap?_eq (hij : j ≤ i) (hj : j ∉ s) (hafter : ∀ m, j < m → m ≤ i → m ∈ s) :
    s.prevGap? i = some j := by
  cases h : s.prevGap? i with
  | none => exact absurd (prevGap?_eq_none h j hij) hj
  | some k =>
    obtain ⟨hki, hk, hgreatest⟩ := prevGap?_eq_some h
    rcases Nat.lt_trichotomy j k with hlt | rfl | hlt
    · exact absurd (hafter k hlt hki) hk
    · rfl
    · exact absurd (hgreatest j hlt hij) hj

end

theorem lt_length_of_mem {s : Bitmap} {i : Nat} (h : i ∈ s) : i < s.length := by
  have hi := lt_of_mem h
  unfold length
  cases hd : seekDown id s.words s.words.size 63 with
  | none => exact absurd h (Bool.eq_false_iff.1 (seekDown_eq_none (by omega) hd i (by omega)))
  | some j =>
    have hj := (seekDown_eq_some (by omega) hd).2.2
    simp only [Option.map_some, Option.getD_some]
    exact Nat.lt_of_not_le fun hc =>
      absurd h (Bool.eq_false_iff.1 (hj i (by omega) (by omega)))

theorem mem_of_length_eq_succ {s : Bitmap} {n : Nat} (h : s.length = n + 1) : n ∈ s := by
  unfold length at h
  cases hd : seekDown id s.words s.words.size 63 with
  | none =>
    rw [hd] at h
    exact nomatch h
  | some j =>
    rw [hd, Option.map_some, Option.getD_some, Nat.add_right_cancel_iff] at h
    exact h ▸ (seekDown_eq_some (by omega) hd).2.1

theorem length_le {s : Bitmap} {n : Nat} (h : ∀ i ∈ s, i < n) : s.length ≤ n := by
  cases hl : s.length with
  | zero => exact Nat.zero_le n
  | succ k => exact h k (mem_of_length_eq_succ hl)

theorem population_eq_count (w : UInt64) : population w = Nat.count (fun k => bit w k) 64 := by
  unfold population
  split
  · next h => simp [h, Nat.count, bit_zero]
  · simp [Nat.count]

theorem foldl_population (ws : List UInt64) : ws.foldl (fun n w => n + population w) 0 =
    Nat.count (fun i => bit (ws.getD (i / 64) 0) (i % 64)) (64 * ws.length) := by
  induction ws using List.reverseRecOn with
  | nil => rfl
  | append_singleton ws w ih =>
    rw [List.foldl_append, ih, List.length_append, Nat.mul_add, Nat.count_add]
    refine congrArg₂ (· + ·) ?_ ?_
    · refine List.countP_congr fun i hi => ?_
      have hi : i / 64 < ws.length := by
        have := List.mem_range.1 hi
        omega
      beta_reduce
      rw [List.getD_append _ _ _ _ hi]
    · rw [population_eq_count]
      refine List.countP_congr fun k hk => ?_
      have hk : k < 64 := List.mem_range.1 hk
      beta_reduce
      rw [show (64 * ws.length + k) / 64 = ws.length by omega,
        show (64 * ws.length + k) % 64 = k by omega, List.getD_append_right _ _ _ _ (Nat.le_refl _),
        Nat.sub_self]
      rfl

section

variable {s : Bitmap} {U : Finset Nat} (hU : ∀ i, i ∈ s ↔ i ∈ U)
include hU

theorem card_eq : s.card = U.card := by
  have hfilter : (Finset.range (64 * s.words.size)).filter (fun i => shown id s.words i) = U := by
    ext i
    rw [Finset.mem_filter, Finset.mem_range, ← hU i]
    exact ⟨fun h => h.2, fun h => ⟨lt_of_mem h, h⟩⟩
  have hget (i : Nat) : s.words.toList.getD i 0 = s.words.getD i 0 := by
    rw [List.getD_eq_getElem?_getD, Array.getElem?_toList, Array.getD_eq_getD_getElem?]
  rw [card, ← Array.foldl_toList, foldl_population, Nat.count_eq_card_filter_range,
    Array.length_toList, ← hfilter]
  simp only [hget]
  rfl

theorem length_eq : s.length = U.sup (· + 1) := by
  apply Nat.le_antisymm
  · exact length_le fun i hi => Finset.le_sup (f := (· + 1)) ((hU i).1 hi)
  · exact Finset.sup_le fun i hi => lt_length_of_mem ((hU i).2 hi)

end

end BlockStore.Bitmap
