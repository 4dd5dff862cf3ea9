import BlockStore.Proofs.Occupancy

namespace BlockStore

namespace Reserved

/-- The forms in which blocks are reserved: none, an interval that is not empty, or all from a block
on. -/
inductive Formed : Reserved → Prop
  | nothing : Formed .nothing
  | between {low high : Nat} (h : low < high) : Formed (.between low high)
  | above (low : Nat) : Formed (.above low)

end Reserved

namespace Occupancy

variable {o : Occupancy} {r : Reserved} {n b cursor skipped : Nat}

theorem nextGap_le_of_vacant (hn : 0 < n) (hv : o.Vacant b n) (hc : cursor ≤ b) :
    o.used.nextGap cursor ≤ b :=
  Nat.le_of_not_lt fun hlt => hv b (Nat.le_refl b) (by omega) (Bitmap.mem_of_lt_nextGap hc hlt)

/-- A hole too small for `n` blocks ends before each vacant range behind its start. -/
theorem le_of_small {start stop : Nat} (hv : o.Vacant b n) (hb : start ≤ b) (hs : stop ∈ o.used)
    (hsmall : stop - start < n) : stop ≤ b :=
  Nat.le_of_not_lt fun hlt => hv stop (Nat.le_of_lt hlt) (by omega) hs

theorem low_lt_of_meets {start : Nat} (h : r.meets start n = .ok true) : r.low < start + n := by
  unfold Reserved.meets at h
  split at h
  · unfold word64 at h
    split at h
    · exact of_decide_eq_true (Except.ok.inj h)
    · cases h
  · cases h

/-- The search passes over no vacant range that an allocation may take. -/
theorem firstFit_le {fit : Fit} (hn : 0 < n) (hv : o.Vacant b n) (ho : o.Outside r b n)
    (hc : cursor ≤ b) (h : o.firstFit n r cursor skipped = .ok fit) : fit.start ≤ b := by
  -- At each turn the range at `b` is still ahead of the cursor.
  fun_induction firstFit o n r cursor skipped with
  | case1 => cases h
  | case2 cursor skipped start hover stop? stop hs ih =>
    have hstart : start ≤ b := nextGap_le_of_vacant hn hv hc
    obtain ⟨hnext, hsmall⟩ := Option.filter_eq_some_iff.1 hs
    exact ih (le_of_small hv hstart (Bitmap.next?_eq_some hnext).2.1 (of_decide_eq_true hsmall)) h
  | case3 => cases h
  | case4 cursor skipped start hover stop? hs hm =>
    obtain rfl := Except.ok.inj h
    exact nextGap_le_of_vacant hn hv hc
  | case5 cursor skipped start hover stop? hs hm high hh ih =>
    have hstart : start ≤ b := nextGap_le_of_vacant hn hv hc
    have hlow := low_lt_of_meets hm
    refine ih ?_ h
    simp only [Outside, hh] at ho
    omega
  | case6 cursor skipped start hover stop? hs hm hh =>
    obtain rfl := Except.ok.inj h
    have hstart : start ≤ b := nextGap_le_of_vacant hn hv hc
    have hlow := low_lt_of_meets hm
    simp only [Outside, hh] at ho
    dsimp only
    omega

theorem preview_le {start : Nat} (hn : 0 < n) (hp : o.preview n r = .ok start)
    (hv : o.Vacant b n) (ho : o.Outside r b n) : start ≤ b := by
  unfold preview at hp
  cases hfit : o.firstFit n r 0 0 with
  | error f =>
    rw [hfit] at hp
    cases hp
  | ok fit =>
    rw [hfit] at hp
    obtain rfl := Except.ok.inj hp
    exact firstFit_le hn hv ho (Nat.zero_le b) hfit

theorem preview_isLeast (hn : 0 < n) (hroom : o.ceiling r + n < UInt64.size) :
    ∃ start, o.preview n r = .ok start ∧ IsLeast {s | o.Vacant s n ∧ o.Outside r s n} start := by
  obtain ⟨start, hp, -, hv, ho⟩ := preview_spec hn hroom
  exact ⟨start, hp, ⟨hv, ho⟩, fun s hs => preview_le hn hp hs.1 hs.2⟩

/-- Where `n` blocks go: to the least vacant range apart from the reserved interval; where the
reserved blocks have no end, to the least vacant range if it ends before them, and to the boundary
if it does not. -/
def FirstFit (o : Occupancy) (r : Reserved) (n start : Nat) : Prop :=
  match r.high with
  | some high =>
    IsLeast {s | o.Vacant s n ∧ Disjoint (Set.Ico s (s + n)) (Set.Ico r.low high)} start
  | none => ∃ m, IsLeast {s | o.Vacant s n} m ∧ start = if m + n ≤ r.low then m else o.stop

theorem outside_nothing (o : Occupancy) (start n : Nat) : o.Outside .nothing start n :=
  .inl (Nat.zero_le start)

theorem outside_between_iff {low high start : Nat} (hn : 0 < n) (hlt : low < high) :
    o.Outside (.between low high) start n ↔
      Disjoint (Set.Ico start (start + n)) (Set.Ico low high) := by
  rw [Set.Ico_disjoint_Ico]
  show high ≤ start ∨ start + n ≤ low ↔ _
  omega

theorem exists_isLeast_vacant (hn : 0 < n) (hroom : o.stop + n < UInt64.size) :
    ∃ m, IsLeast {s | o.Vacant s n} m := by
  obtain ⟨m, -, hm⟩ := preview_isLeast (o := o) (r := .nothing) hn (by
    simpa only [ceiling, Reserved.nothing, Option.getD_some, Nat.max_zero] using hroom)
  simp only [outside_nothing, and_true] at hm
  exact ⟨m, hm⟩

theorem firstFit_of_isLeast {start : Nat} (hn : 0 < n) (hr : r.Formed)
    (hroom : o.ceiling r + n < UInt64.size)
    (h : IsLeast {s | o.Vacant s n ∧ o.Outside r s n} start) : o.FirstFit r n start := by
  cases hr with
  | nothing =>
    simp only [outside_nothing, and_true] at h
    simpa only [FirstFit, Reserved.nothing, Set.Ico_self, Set.disjoint_empty, and_true] using h
  | between hlt =>
    simp only [outside_between_iff hn hlt] at h
    exact h
  | above low =>
    have hroom : o.stop + n < UInt64.size :=
      Nat.lt_of_le_of_lt (Nat.add_le_add_right (Nat.le_max_left ..) n) hroom
    obtain ⟨m, hm⟩ := exists_isLeast_vacant hn hroom
    refine ⟨m, hm, ?_⟩
    have hle : m ≤ start := hm.2 h.1.1
    split
    · next hlow => exact Nat.le_antisymm (h.2 ⟨hm.1, .inl hlow⟩) hle
    · next hlow =>
      -- No vacant range ends before the reserved blocks, as the least one does not.
      have hout : start + n ≤ low ∨ start = o.stop := h.1.2
      have hlow : ¬m + n ≤ low := hlow
      omega

theorem allocate_congr {length length' : Nat} (h : o.blocksIn length = o.blocksIn length') :
    o.allocate length r = o.allocate length' r := by
  simp only [allocate, isFree, h]

/-- An allocation goes where first fit says, and takes just the blocks it went to. -/
theorem allocate_first_fit {length : Nat} (hl : 0 < length) (hn : o.blocksIn length = .ok n)
    (hr : r.Formed) (hroom : (o.ceiling r + n) * o.blockSize < UInt64.size)
    (hfour : 4 * n < UInt64.size) :
    ∃ start o', o.preview n r = .ok start ∧
      o.allocate length r = .ok (start * o.blockSize, o') ∧
      o.FirstFit r n start ∧ o.Vacant start n ∧
      ∀ b, b ∈ o'.used ↔ b ∈ o.used ∨ start ≤ b ∧ b < start + n := by
  have hb : 0 < o.blockSize := Nat.pos_of_ne_zero fun h0 => by
    rw [blocksIn, if_pos h0] at hn
    cases hn
  have hcover : n = blocksCovering length o.blockSize := by
    rw [blocksIn, if_neg (by omega)] at hn
    exact (Except.ok.inj hn).symm
  have hpos : 0 < n := by
    rw [hcover, blocksCovering]
    exact Nat.div_pos (by omega) hb
  have hsmall : o.ceiling r + n < UInt64.size :=
    Nat.lt_of_le_of_lt (Nat.le_mul_of_pos_right _ hb) hroom
  obtain ⟨start, hp, hleast⟩ := preview_isLeast hpos hsmall
  obtain ⟨wasteful, halloc⟩ := allocate_eq rfl hb hpos hroom hfour hp
  rw [allocate_congr (hn.trans (blocksIn_mul rfl hb n).symm)]
  exact ⟨start, _, hp, halloc, firstFit_of_isLeast hpos hr hsmall hleast, hleast.1.1,
    fun b => Bitmap.mem_insertRange⟩

/-- Blocks 0, 1, 3, 6, 7 and 11 in use. -/
def perforated : Occupancy := ⟨2, 4096, ⟨#[0b100011001011]⟩, []⟩

/-- Two blocks find the first hole too small and the second one reserved. -/
theorem allocate_first_fit_perforated : ∃ o', perforated.allocate 5000 (.between 5 8) = .ok (8 * 4096, o') ∧
    perforated.FirstFit (.between 5 8) 2 8 ∧ perforated.Vacant 8 2 ∧
    ∀ b, b ∈ o'.used ↔ b ∈ perforated.used ∨ 8 ≤ b ∧ b < 8 + 2 := by
  obtain ⟨start, o', hp, h⟩ := @allocate_first_fit perforated (.between 5 8) 2 5000 (by decide) rfl
    (.between (by decide)) (by decide +kernel) (by decide)
  have hstart : perforated.preview 2 (.between 5 8) = .ok 8 := by decide +kernel
  obtain rfl : 8 = start := Except.ok.inj (hstart.symm.trans hp)
  exact ⟨o', h⟩

end Occupancy

end BlockStore
