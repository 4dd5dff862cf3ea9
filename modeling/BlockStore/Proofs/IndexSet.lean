import BlockStore.Proofs.Bitmap

namespace BlockStore.Bitmap

/-- A change of a set of indices. -/
inductive Edit
  | insert (lo hi : Nat)
  | erase (lo hi : Nat)
  | clear

namespace Edit

def onBitmap (s : Bitmap) : Edit → Bitmap
  | insert lo hi => s.insertRange lo hi
  | erase lo hi => s.eraseRange lo hi
  | clear => {}

def onSet (U : Finset Nat) : Edit → Finset Nat
  | insert lo hi => U ∪ Finset.Ico lo hi
  | erase lo hi => U \ Finset.Ico lo hi
  | clear => ∅

end Edit

/-- What a search for the best index of `A` has found. -/
def Found (best : Set Nat → Nat → Prop) (A : Set Nat) : Option Nat → Prop
  | some i => best A i
  | none => A = ∅

/-- No word is stored behind the last member. -/
def Trimmed (s : Bitmap) : Prop := s.words.back? ≠ some 0

/-- The bitmap answers each question as the set `U` does, and reads its length off the last word. -/
structure Depicts (s : Bitmap) (U : Finset Nat) : Prop where
  trimmed : s.Trimmed
  contains : ∀ i, s.contains i = decide (i ∈ U)
  card : s.card = U.card
  length : s.length = U.sup (· + 1)
  lastWord : s.length = match s.words.back? with
    | some w => 64 * (s.words.size - 1) + w.toNat.log2 + 1
    | none => 0
  next? : ∀ i, Found IsLeast {j | j ∈ U ∧ i ≤ j} (s.next? i)
  nextGap : ∀ i, IsLeast {j | j ∉ U ∧ i ≤ j} (s.nextGap i)
  prev? : ∀ i, Found IsGreatest {j | j ∈ U ∧ j ≤ i} (s.prev? i)
  prevGap? : ∀ i, Found IsGreatest {j | j ∉ U ∧ j ≤ i} (s.prevGap? i)

theorem bit_eq_testBit {w : UInt64} {k : Nat} (hk : k < 64) : bit w k = w.toNat.testBit k := by
  rw [bit_eq_getLsbD hk, ← BitVec.testBit_toNat, UInt64.toNat_toBitVec]

section

variable {w : UInt64} {k : Nat}

theorem log2_lt (h : w ≠ 0) : w.toNat.log2 < 64 :=
  (Nat.log2_lt fun h0 => h (UInt64.toNat_inj.1 h0)).2 w.toNat_lt

theorem bit_log2 (h : w ≠ 0) : bit w w.toNat.log2 := by
  rw [bit_eq_testBit (log2_lt h)]
  exact Nat.testBit_log2 fun h0 => h (UInt64.toNat_inj.1 h0)

theorem le_log2 (hk : k < 64) (h : bit w k) : k ≤ w.toNat.log2 := by
  rw [bit_eq_testBit hk] at h
  have hpow := Nat.ge_two_pow_of_testBit h
  have hn : w.toNat ≠ 0 := Nat.ne_of_gt (Nat.lt_of_lt_of_le (Nat.two_pow_pos k) hpow)
  exact (Nat.le_log2 hn).2 hpow

end

section

variable {s : Bitmap} {w : UInt64} {i k : Nat}

/-- Membership in the range of the last word. -/
theorem mem_last_iff (hw : s.words.back? = some w) (hk : k < 64) :
    64 * (s.words.size - 1) + k ∈ s ↔ bit w k := by
  rw [Array.back?_eq_getElem?] at hw
  rw [mem_iff, shown_add id s.words _ hk, Array.getD_eq_getD_getElem?, hw]
  rfl

theorem trimmed_of_mem (hi : i ∈ s) (hlast : 64 * s.words.size ≤ i + 64) : s.Trimmed := by
  intro hw
  have hlt := lt_of_mem hi
  obtain ⟨k, rfl⟩ := Nat.exists_eq_add_of_le (show 64 * (s.words.size - 1) ≤ i by omega)
  have hbit := (mem_last_iff hw (show k < 64 by omega)).1 hi
  rw [bit_zero] at hbit
  exact Bool.false_ne_true hbit

namespace Trimmed

theorem ne_zero (h : s.Trimmed) (hw : s.words.back? = some w) : w ≠ 0 :=
  fun h0 => h (hw.trans (congrArg some h0))

theorem exists_mem (h : s.Trimmed) (hs : 0 < s.words.size) :
    ∃ i ∈ s, 64 * s.words.size ≤ i + 64 := by
  cases hw : s.words.back? with
  | none =>
    rw [Array.back?_eq_none_iff.1 hw] at hs
    exact absurd hs (Nat.lt_irrefl 0)
  | some w =>
    have hne := h.ne_zero hw
    exact ⟨_, (mem_last_iff hw (log2_lt hne)).2 (bit_log2 hne), by omega⟩

/-- The greatest member is the highest bit of the last word. -/
theorem length_eq (h : s.Trimmed) : s.length = match s.words.back? with
    | some w => 64 * (s.words.size - 1) + w.toNat.log2 + 1
    | none => 0 := by
  cases hw : s.words.back? with
  | none =>
    refine Nat.le_zero.1 (length_le fun i hi => ?_)
    have hlt := lt_of_mem hi
    rw [Array.back?_eq_none_iff.1 hw] at hlt
    exact hlt
  | some w =>
    dsimp only
    have hne := h.ne_zero hw
    have hmem := (mem_last_iff hw (log2_lt hne)).2 (bit_log2 hne)
    refine Nat.le_antisymm (length_le fun i hi => Nat.lt_succ_of_le ?_) (lt_length_of_mem hmem)
    have hlt := lt_of_mem hi
    by_cases hle : 64 * (s.words.size - 1) ≤ i
    · obtain ⟨k, rfl⟩ := Nat.exists_eq_add_of_le hle
      have hk : k < 64 := by omega
      exact Nat.add_le_add_left (le_log2 hk ((mem_last_iff hw hk).1 hi)) _
    · omega

end Trimmed

end

theorem size_foldl_modify (g : Nat → UInt64 → UInt64) (is : List Nat) (words : Array UInt64) :
    (is.foldl (fun ws i => ws.modify i (g i)) words).size = words.size := by
  induction is generalizing words with
  | nil => rfl
  | cons i is ih => rw [List.foldl_cons, ih, Array.size_modify]

theorem size_update (f : UInt64 → UInt64 → UInt64) (lo hi : Nat) (words : Array UInt64) :
    (update f lo hi words).size = words.size := size_foldl_modify ..

theorem size_insertRange {s : Bitmap} {lo hi : Nat} (h : lo < hi) :
    (s.insertRange lo hi).words.size = max s.words.size ((hi + 63) / 64) := by
  rw [insertRange, if_pos h, size_update, Array.size_append, Array.size_replicate]
  omega

theorem back?_popWhile (words : Array UInt64) : (words.popWhile (· == 0)).back? ≠ some 0 := by
  fun_induction Array.popWhile (· == (0 : UInt64)) words with
  | case1 words h hz ih => exact ih
  | case2 words h hz =>
    intro hw
    rw [Array.back?_eq_getElem?, Array.getElem?_eq_getElem (by omega)] at hw
    exact hz (beq_iff_eq.2 (Option.some.inj hw))
  | case3 words h =>
    have hempty : words = #[] := Array.eq_empty_of_size_eq_zero (by omega)
    simp [hempty]

namespace Trimmed

variable {s : Bitmap} {lo hi : Nat}

theorem insertRange (h : s.Trimmed) : (s.insertRange lo hi).Trimmed := by
  by_cases hlt : lo < hi
  · have hsize := size_insertRange (s := s) hlt
    by_cases hgrow : s.words.size < (hi + 63) / 64
    · -- The last word is a new one, and it has the end of the range.
      have hend : hi - 1 ∈ s.insertRange lo hi := mem_insertRange.2 (.inr (by omega))
      exact trimmed_of_mem hend (by omega)
    · obtain ⟨i, hi', hle⟩ := h.exists_mem (by omega)
      exact trimmed_of_mem (mem_insertRange.2 (.inl hi')) (by omega)
  · rwa [Bitmap.insertRange, if_neg hlt]

theorem eraseRange (h : s.Trimmed) : (s.eraseRange lo hi).Trimmed := by
  unfold Bitmap.eraseRange
  split
  · exact back?_popWhile _
  · exact h

end Trimmed

section

variable {s : Bitmap} {U : Finset Nat} (hU : ∀ i, i ∈ s ↔ i ∈ U)
include hU

theorem next?_found (i : Nat) : Found IsLeast {j | j ∈ U ∧ i ≤ j} (s.next? i) := by
  cases h : s.next? i with
  | none =>
    refine Set.eq_empty_iff_forall_notMem.2 fun j hj => ?_
    exact next?_eq_none h j hj.2 ((hU j).2 hj.1)
  | some j =>
    obtain ⟨hij, hj, hleast⟩ := next?_eq_some h
    refine ⟨⟨(hU j).1 hj, hij⟩, fun m hm => Nat.le_of_not_lt fun hlt => ?_⟩
    exact hleast m hm.2 hlt ((hU m).2 hm.1)

theorem nextGap_isLeast (i : Nat) : IsLeast {j | j ∉ U ∧ i ≤ j} (s.nextGap i) := by
  refine ⟨⟨mt (hU _).2 (s.nextGap_not_mem i), s.le_nextGap i⟩, fun m hm => ?_⟩
  exact Nat.le_of_not_lt fun hlt => hm.1 ((hU m).1 (mem_of_lt_nextGap hm.2 hlt))

theorem prev?_found (i : Nat) : Found IsGreatest {j | j ∈ U ∧ j ≤ i} (s.prev? i) := by
  cases h : s.prev? i with
  | none =>
    refine Set.eq_empty_iff_forall_notMem.2 fun j hj => ?_
    exact prev?_eq_none h j hj.2 ((hU j).2 hj.1)
  | some j =>
    obtain ⟨hji, hj, hgreatest⟩ := prev?_eq_some h
    refine ⟨⟨(hU j).1 hj, hji⟩, fun m hm => Nat.le_of_not_lt fun hlt => ?_⟩
    exact hgreatest m hlt hm.2 ((hU m).2 hm.1)

theorem prevGap?_found (i : Nat) : Found IsGreatest {j | j ∉ U ∧ j ≤ i} (s.prevGap? i) := by
  cases h : s.prevGap? i with
  | none =>
    refine Set.eq_empty_iff_forall_notMem.2 fun j hj => ?_
    exact hj.1 ((hU j).1 (prevGap?_eq_none h j hj.2))
  | some j =>
    obtain ⟨hji, hj, hgreatest⟩ := prevGap?_eq_some h
    refine ⟨⟨mt (hU j).2 hj, hji⟩, fun m hm => Nat.le_of_not_lt fun hlt => ?_⟩
    exact hm.1 ((hU m).1 (hgreatest m hlt hm.2))

theorem depicts_of_mem_iff (ht : s.Trimmed) : Depicts s U where
  trimmed := ht
  contains i := Bool.eq_iff_iff.2 ((hU i).trans decide_eq_true_iff.symm)
  card := card_eq hU
  length := Bitmap.length_eq hU
  lastWord := ht.length_eq
  next? := next?_found hU
  nextGap := nextGap_isLeast hU
  prev? := prev?_found hU
  prevGap? := prevGap?_found hU

end

theorem depicts_empty : Depicts {} ∅ := depicts_of_mem_iff (fun i => by simp) nofun

namespace Depicts

variable {s : Bitmap} {U : Finset Nat} (h : Depicts s U)
include h

theorem mem_iff (i : Nat) : i ∈ s ↔ i ∈ U := by
  show s.contains i = true ↔ i ∈ U
  rw [h.contains, decide_eq_true_iff]

theorem edit (e : Edit) : Depicts (e.onBitmap s) (e.onSet U) := by
  cases e with
  | insert lo hi =>
    refine depicts_of_mem_iff (fun i => ?_) h.trimmed.insertRange
    simp [Edit.onBitmap, Edit.onSet, h.mem_iff]
  | erase lo hi =>
    refine depicts_of_mem_iff (fun i => ?_) h.trimmed.eraseRange
    simp [Edit.onBitmap, Edit.onSet, h.mem_iff]
  | clear => exact depicts_empty

end Depicts

/-- Changed in any way from the empty one on, a bitmap is the set of the indices that were inserted
and not erased since. -/
theorem edits_depict (edits : List Edit) :
    Depicts (edits.foldl Edit.onBitmap {}) (edits.foldl Edit.onSet ∅) := by
  induction edits using List.reverseRecOn with
  | nil => exact depicts_empty
  | append_singleton edits e ih =>
    rw [List.foldl_append, List.foldl_append]
    exact ih.edit e

end BlockStore.Bitmap
