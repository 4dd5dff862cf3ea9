import BlockStore.Proofs.BlockSet

namespace BlockStore.Occupancy

variable {o o' : Occupancy} {header size b k used used' total total' : Nat}

/-- The maps that calls lead to from a new one, whether each of them succeeds or not. -/
inductive Reachable (header size : Nat) : Occupancy → Prop
  | created (h : header < UInt64.size) : Reachable header size (create header size)
  | ran {o : Occupancy} (q : Demand) (h : Reachable header size o) :
      Reachable header size (q.run o).2

/-- What all calls keep: the header is in use, other blocks only where blocks have a size, and the
boundary is a word. -/
structure Regular (header size : Nat) (o : Occupancy) : Prop where
  headerBlocks : o.headerBlocks = header
  blockSize : o.blockSize = size
  head : ∀ b < header, b ∈ o.used
  sized : ∀ b ∈ o.used, header ≤ b → 0 < size
  stop : o.stop < UInt64.size

theorem mem_create : b ∈ (create header size).used ↔ b < header := by simp [create]

theorem regular_create (h : header < UInt64.size) : Regular header size (create header size) where
  headerBlocks := rfl
  blockSize := rfl
  head _ hb := mem_create.2 hb
  sized _ hb hh := absurd (mem_create.1 hb) (Nat.not_lt.2 hh)
  stop := Nat.lt_of_le_of_lt (stop_le fun _ => mem_create.1) h

namespace Regular

variable (h : Regular header size o)
include h

theorem header_le : header ≤ o.stop :=
  Nat.le_of_not_lt fun hlt => Nat.lt_irrefl _ (lt_stop (h.head _ hlt))

theorem turns (ht : o.Turns o') : Regular header size o' := by
  cases ht with
  | kept => exact h
  | taken hs hstop => exact {
      headerBlocks := h.headerBlocks
      blockSize := h.blockSize
      head := fun b hb => Bitmap.mem_insertRange.2 (.inl (h.head b hb))
      sized := fun _ _ _ => h.blockSize ▸ hs
      stop := by
        refine Nat.lt_of_le_of_lt (stop_le fun b hb => ?_) (Nat.max_lt.2 ⟨h.stop, hstop⟩)
        rcases Bitmap.mem_insertRange.1 hb with hb | hb
        · exact lt_max_of_lt_left (lt_stop hb)
        · exact lt_max_of_lt_right hb.2 }
  | returned hstart => exact {
      headerBlocks := h.headerBlocks
      blockSize := h.blockSize
      head := fun b hb => Bitmap.mem_eraseRange.2 ⟨h.head b hb, by
        have := h.headerBlocks
        omega⟩
      sized := fun b hb => h.sized b (Bitmap.mem_eraseRange.1 hb).1
      stop := Nat.lt_of_le_of_lt
        (stop_le fun b hb => lt_stop (Bitmap.mem_eraseRange.1 hb).1) h.stop }
  | cleared =>
    rw [clear, h.headerBlocks, h.blockSize]
    exact regular_create (Nat.lt_of_le_of_lt h.header_le h.stop)

end Regular

theorem Demand.turns (q : Demand) (o : Occupancy) : o.Turns (q.run o).2 := by
  cases q with
  | mark start length =>
    rw [run, replace_eq]
    cases h : o.mark (start * o.blockSize) length with
    | error f => exact .kept
    | ok o' => exact turns_of_mark h
  | free start length =>
    rw [run, replace_eq]
    cases h : o.free (start * o.blockSize) length with
    | error f => exact .kept
    | ok o' => exact turns_of_free h
  | allocate length r =>
    rw [run_allocate]
    rcases h : o.allocate length r with f | ⟨pos, o'⟩
    · exact .kept
    · exact turns_of_allocate h
  | clear => exact .cleared

theorem Reachable.regular (h : Reachable header size o) : Regular header size o := by
  induction h with
  | created hh => exact regular_create hh
  | ran q _ ih => exact ih.turns (q.turns _)

/-! Rounding up. -/

theorem share_le_iff (h : used ≤ total) : share used total ≤ k ↔ 100 * used ≤ k * total := by
  unfold share
  split
  · next hzero =>
    obtain rfl : used = 0 := by omega
    simp
  · rw [Nat.div_le_iff_le_mul_add_pred (by omega), Nat.mul_comm total k]
    omega

theorem share_mono (hu : used ≤ used') (ht : total' ≤ total) (h : used' ≤ total') :
    share used total ≤ share used' total' := by
  refine (share_le_iff (by omega)).2 ?_
  calc 100 * used ≤ 100 * used' := Nat.mul_le_mul_left _ hu
    _ ≤ share used' total' * total' := (share_le_iff h).1 (Nat.le_refl _)
    _ ≤ share used' total' * total := Nat.mul_le_mul_left _ ht

theorem share_le (h : used ≤ total) : share used total ≤ 100 :=
  (share_le_iff h).2 (Nat.mul_le_mul_left _ h)

theorem share_eq_zero (h : used ≤ total) : share used total = 0 ↔ used = 0 := by
  rw [← Nat.le_zero, share_le_iff h]
  omega

theorem share_self (h : 0 < total) : share total total = 100 := by
  refine Nat.le_antisymm (share_le (Nat.le_refl _)) ?_
  exact Nat.le_of_mul_le_mul_right ((share_le_iff (Nat.le_refl _)).1 (Nat.le_refl _)) h

/-- The blocks in use. -/
def blocks (o : Occupancy) : Finset Nat := (Finset.range o.stop).filter (· ∈ o.used)

theorem mem_blocks : b ∈ o.blocks ↔ b ∈ o.used := by
  rw [blocks, Finset.mem_filter, Finset.mem_range]
  exact and_iff_right_of_imp lt_stop

theorem usedCount_eq : o.usedCount = o.blocks.card := Bitmap.card_eq fun _ => mem_blocks.symm

theorem usedCount_le : o.usedCount ≤ o.stop := by
  rw [usedCount_eq]
  exact (Finset.card_filter_le _ _).trans_eq (Finset.card_range _)

theorem usedCount_lt (hb : b < o.stop) (h : b ∉ o.used) : o.usedCount < o.stop := by
  have hsub : o.blocks ⊂ Finset.range o.stop := by
    refine (Finset.ssubset_iff_of_subset (Finset.filter_subset ..)).2 ⟨b, Finset.mem_range.2 hb, ?_⟩
    exact fun hm => h (mem_blocks.1 hm)
  rw [usedCount_eq]
  exact (Finset.card_lt_card hsub).trans_eq (Finset.card_range _)

namespace Regular

variable (h : Regular header size o)
include h

theorem card_le {V : Finset Nat} (hV : ∀ b ∈ V, header ≤ b ∧ b ∈ o.used) :
    header + V.card ≤ o.usedCount := by
  have hdisjoint : Disjoint (Finset.range header) V := Finset.disjoint_left.2 fun b hb hm =>
    Nat.not_lt.2 (hV b hm).1 (Finset.mem_range.1 hb)
  have hsub : Finset.range header ∪ V ⊆ o.blocks := Finset.union_subset
    (fun b hb => mem_blocks.2 (h.head b (Finset.mem_range.1 hb)))
    (fun b hb => mem_blocks.2 (hV b hb).2)
  calc header + V.card = (Finset.range header ∪ V).card := by
        rw [Finset.card_union_of_disjoint hdisjoint, Finset.card_range]
    _ ≤ o.usedCount := usedCount_eq ▸ Finset.card_le_card hsub

theorem fillRateWithout {n : Nat} (hn : header + n < UInt64.size) :
    o.fillRateWithout n = .ok (share (o.usedCount - (header + n)) (o.stop - header)) := by
  obtain rfl := h.headerBlocks
  exact fillRateWithout_eq hn

theorem fillRate : o.fillRate = .ok (share (o.usedCount - header) (o.stop - header)) :=
  h.fillRateWithout (n := 0) (Nat.lt_of_le_of_lt h.header_le h.stop)

theorem usedCount_le_header : o.usedCount ≤ header ↔ ∀ b, b ∈ o.used ↔ b < header := by
  constructor
  · intro hle b
    refine ⟨fun hb => Nat.lt_of_not_le fun hh => ?_, h.head b⟩
    have hone := h.card_le (V := {b}) fun c hc => by
      obtain rfl := Finset.mem_singleton.1 hc
      exact ⟨hh, hb⟩
    rw [Finset.card_singleton] at hone
    omega
  · intro hheader
    have hsub : o.blocks ⊆ Finset.range header := fun b hb =>
      Finset.mem_range.2 ((hheader b).1 (mem_blocks.1 hb))
    rw [usedCount_eq]
    exact (Finset.card_le_card hsub).trans_eq (Finset.card_range _)

/-- With the blocks of `V` given back, as many remain as the projection counts, and the boundary is
no higher. -/
theorem forecast (h' : Regular header size o') {V : Finset Nat}
    (hV : ∀ b ∈ V, header ≤ b ∧ b ∈ o.used) (hmem : ∀ b, b ∈ o'.used ↔ b ∈ o.used ∧ b ∉ V) :
    ∃ rate rate', o.fillRateWithout V.card = .ok rate ∧ o'.fillRate = .ok rate' ∧ rate ≤ 100 ∧
      rate ≤ rate' ∧ (o'.stop = o.stop → rate = rate') := by
  have hblocks : o'.blocks = o.blocks \ V := by
    ext b
    rw [Finset.mem_sdiff, mem_blocks, mem_blocks, hmem]
  have hsub : V ⊆ o.blocks := fun b hb => mem_blocks.2 (hV b hb).2
  have hcount : o'.usedCount = o.usedCount - V.card := by
    rw [usedCount_eq, hblocks, Finset.card_sdiff_of_subset hsub, usedCount_eq]
  have hstop : o'.stop ≤ o.stop := stop_le fun b hb => lt_stop ((hmem b).1 hb).1
  have hleft : o.usedCount - (header + V.card) = o'.usedCount - header := by omega
  have hle := h.card_le hV
  have hused := usedCount_le (o := o)
  have hused' := usedCount_le (o := o')
  have hword := h.stop
  refine ⟨_, _, h.fillRateWithout (by omega), h'.fillRate, share_le (by omega), ?_, fun he => ?_⟩
  · rw [hleft]
    exact share_mono (Nat.le_refl _) (by omega) (by omega)
  · rw [hleft, he]

end Regular

/-- Gives the blocks back one by one. -/
def freeEach (o : Occupancy) (V : List Nat) : Except Failure Occupancy :=
  V.foldlM (fun o b => o.free (b * o.blockSize) o.blockSize) o

theorem Reachable.free_block (h : Reachable header size o) (hb : header ≤ b) (hm : b ∈ o.used) :
    ∃ o', o.free (b * o.blockSize) o.blockSize = .ok o' ∧ Reachable header size o' ∧
      ∀ c, c ∈ o'.used ↔ c ∈ o.used ∧ c ≠ b := by
  have hreg := h.regular
  have hfilled : o.Filled b 1 := fun c hc hc' => by
    obtain rfl : c = b := by omega
    exact hm
  have hword : b + 1 < UInt64.size := Nat.lt_of_le_of_lt (lt_stop hm) hreg.stop
  have hfree := free_eq rfl (hreg.blockSize ▸ hreg.sized b hm hb) hword
    (hreg.headerBlocks ▸ hb) hfilled
  rw [Nat.one_mul] at hfree
  have hrun : ((Demand.free b o.blockSize).run o).2 =
      { o with used := o.used.eraseRange b (b + 1) } := by
    rw [Demand.run, Demand.replace_eq, hfree]
  refine ⟨_, hfree, hrun ▸ h.ran _, fun c => ?_⟩
  rw [Bitmap.mem_eraseRange]
  exact and_congr_right fun _ => by omega

/-- In whatever order they come, blocks in use behind the header can be given back. -/
theorem Reachable.freeEach (h : Reachable header size o) {V : List Nat} (hn : V.Nodup)
    (hV : ∀ b ∈ V, header ≤ b ∧ b ∈ o.used) : ∃ o', o.freeEach V = .ok o' ∧
      Reachable header size o' ∧ ∀ b, b ∈ o'.used ↔ b ∈ o.used ∧ b ∉ V := by
  induction V generalizing o with
  | nil => exact ⟨o, rfl, h, by simp⟩
  | cons b V ih =>
    obtain ⟨hb, hm⟩ := hV b List.mem_cons_self
    obtain ⟨hnot, hn⟩ := List.nodup_cons.1 hn
    obtain ⟨o₁, hfree, h₁, hmem₁⟩ := h.free_block hb hm
    have hV₁ : ∀ c ∈ V, header ≤ c ∧ c ∈ o₁.used := fun c hc => by
      obtain ⟨hh, hu⟩ := hV c (List.mem_cons_of_mem _ hc)
      exact ⟨hh, (hmem₁ c).2 ⟨hu, fun he => hnot (he ▸ hc)⟩⟩
    obtain ⟨o', hrest, h', hmem'⟩ := ih h₁ hn hV₁
    refine ⟨o', ?_, h', fun c => ?_⟩
    · rw [Occupancy.freeEach, List.foldlM_cons, hfree, ok_bind]
      exact hrest
    · rw [hmem', hmem₁, List.mem_cons, not_or, and_assoc]

/-- The projected fill rate is a percentage that is no more than the fill rate once the blocks have
been given back, in whatever order, and the same if the boundary has stayed. It never rises with the
number of blocks. The fill rate is 0 if the header alone is in use and 100 if there is no gap below
the boundary. Up to 2^57 blocks it is computed without overflow. -/
theorem fillRate_forecast (h : Reachable header size o) :
    (∀ V : List Nat, V.Nodup → (∀ b ∈ V, header ≤ b ∧ b ∈ o.used) → ∃ o' rate rate',
      o.freeEach V = .ok o' ∧ (∀ b, b ∈ o'.used ↔ b ∈ o.used ∧ b ∉ V) ∧
      o.fillRateWithout V.length = .ok rate ∧ o'.fillRate = .ok rate' ∧
      rate ≤ 100 ∧ rate ≤ rate' ∧ (o'.stop = o.stop → rate = rate')) ∧
    (∀ v w rate, v ≤ w → o.fillRateWithout w = .ok rate →
      ∃ rate', o.fillRateWithout v = .ok rate' ∧ rate ≤ rate' ∧ rate' ≤ 100) ∧
    (o.stop ≤ 2 ^ 57 → 100 * o.usedCount + o.stop < UInt64.size) ∧
    ∃ rate, o.fillRate = .ok rate ∧ (rate = 0 ↔ ∀ b, b ∈ o.used ↔ b < header) ∧
      ((∃ b ∈ o.used, header ≤ b) → (∀ b < o.stop, b ∈ o.used) → rate = 100) := by
  have hreg := h.regular
  have hle := usedCount_le (o := o)
  refine ⟨fun V hn hV => ?_, fun v w rate hvw hw => ?_, fun hsmall => ?_, _, hreg.fillRate, ?_,
    fun hsome hfull => ?_⟩
  · obtain ⟨o', hfree, h', hmem⟩ := h.freeEach hn hV
    obtain ⟨rate, rate', hrate, hrate', hrates⟩ := hreg.forecast h'.regular (V := V.toFinset)
      (fun b hb => hV b (List.mem_toFinset.1 hb)) fun b => by rw [hmem, List.mem_toFinset]
    rw [List.toFinset_card_of_nodup hn] at hrate
    exact ⟨o', rate, rate', hfree, hmem, hrate, hrate', hrates⟩
  · have hword : header + w < UInt64.size := by
      unfold fillRateWithout at hw
      obtain ⟨_, hsum, -⟩ := bind_eq_ok hw
      exact hreg.headerBlocks ▸ (word64_eq_ok.1 hsum).1
    obtain rfl := Except.ok.inj ((hreg.fillRateWithout hword).symm.trans hw)
    refine ⟨_, hreg.fillRateWithout (by omega), ?_, share_le (by omega)⟩
    exact share_mono (by omega) (Nat.le_refl _) (by omega)
  · simp only [UInt64.size]
    omega
  · rw [share_eq_zero (by omega), Nat.sub_eq_zero_iff_le, hreg.usedCount_le_header]
  · obtain ⟨b, hb, hh⟩ := hsome
    have hlt := lt_stop hb
    have hblocks : o.blocks = Finset.range o.stop :=
      Finset.filter_true_of_mem fun c hc => hfull c (Finset.mem_range.1 hc)
    have hcount : o.usedCount = o.stop := by
      rw [usedCount_eq, hblocks, Finset.card_range]
    rw [hcount, share_self (by omega)]

/-- Ten blocks behind a header of two. -/
def packed : Occupancy := ⟨2, 4096, ⟨#[0b111111111111]⟩, []⟩

theorem reachable_packed : Reachable 2 4096 packed := by
  have hmark : (create 2 4096).mark (2 * 4096) 40960 = .ok packed := by decide +kernel
  have hrun : ((Demand.mark 2 40960).run (create 2 4096)).2 = packed := by
    rw [Demand.run, Demand.replace_eq, show (create 2 4096).blockSize = 4096 from rfl, hmark]
  exact hrun ▸ .ran _ (.created (by decide))

/-- Five of the ten blocks are given back, from the middle and from the end. -/
theorem fillRate_forecast_packed : Reachable 2 4096 packed ∧ (∃ o' rate rate',
      packed.freeEach [9, 11, 4, 10, 5] = .ok o' ∧
      (∀ b, b ∈ o'.used ↔ b ∈ packed.used ∧ b ∉ [9, 11, 4, 10, 5]) ∧
      packed.fillRateWithout 5 = .ok rate ∧ o'.fillRate = .ok rate' ∧
      rate ≤ 100 ∧ rate ≤ rate' ∧ (o'.stop = packed.stop → rate = rate')) ∧
    (∀ v w rate, v ≤ w → packed.fillRateWithout w = .ok rate →
      ∃ rate', packed.fillRateWithout v = .ok rate' ∧ rate ≤ rate' ∧ rate' ≤ 100) ∧
    (packed.stop ≤ 2 ^ 57 → 100 * packed.usedCount + packed.stop < UInt64.size) ∧
    ∃ rate, packed.fillRate = .ok rate ∧ (rate = 0 ↔ ∀ b, b ∈ packed.used ↔ b < 2) ∧
      ((∃ b ∈ packed.used, 2 ≤ b) → (∀ b < packed.stop, b ∈ packed.used) → rate = 100) := by
  obtain ⟨hfree, hrest⟩ := fillRate_forecast reachable_packed
  exact ⟨reachable_packed, hfree [9, 11, 4, 10, 5] (by decide) (by decide +kernel), hrest⟩

end BlockStore.Occupancy
