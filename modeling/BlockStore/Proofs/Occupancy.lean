import BlockStore.Occupancy
import BlockStore.Proofs.Bitmap

namespace BlockStore

theorem ok_bind {ε α β : Type} (a : α) (f : α → Except ε β) : (Except.ok a >>= f) = f a := rfl

theorem pure_ok {ε α : Type} (a : α) : (pure a : Except ε α) = .ok a := rfl

theorem map_ok {ε α β : Type} (a : α) (f : α → β) : f <$> (Except.ok a : Except ε α) = .ok (f a) := rfl

theorem liftM_ok {α : Type} (a : α) : (liftM (Except.ok a : Checked α) : Except Failure α) = .ok a :=
  rfl

theorem bind_eq_ok {ε α β : Type} {x : Except ε α} {f : α → Except ε β} {b : β}
    (h : (x >>= f) = .ok b) : ∃ a, x = .ok a ∧ f a = .ok b := by
  cases x with
  | error e => exact nomatch h
  | ok a => exact ⟨a, rfl, h⟩

theorem map_eq_ok {ε α β : Type} {x : Except ε α} {f : α → β} {b : β}
    (h : f <$> x = .ok b) : ∃ a, x = .ok a ∧ f a = b := by
  cases x with
  | error e => exact nomatch h
  | ok a => exact ⟨a, rfl, Except.ok.inj h⟩

theorem liftM_eq_ok {α : Type} {x : Checked α} {a : α}
    (h : (liftM x : Except Failure α) = .ok a) : x = .ok a := by
  cases x with
  | error e => exact nomatch h
  | ok b => exact congrArg Except.ok (Except.ok.inj h)

theorem word64_of_lt {n : Nat} (h : n < UInt64.size) : word64 n = .ok n := if_pos h

theorem word32_of_lt {n : Nat} (h : n < UInt32.size) : word32 n = .ok n := if_pos h

theorem mul_blockSize (n : Nat) : n * blockSize = 4096 * n := Nat.mul_comm ..

theorem blocksCovering_mul {size : Nat} (hs : 0 < size) (n : Nat) :
    blocksCovering (n * size) size = n := by
  rw [blocksCovering, Nat.add_sub_assoc hs, Nat.mul_comm, Nat.mul_add_div hs,
    Nat.div_eq_of_lt (by omega), Nat.add_zero]

theorem blocksCovering_le {size : Nat} (hs : 0 < size) (n : Nat) : blocksCovering n size ≤ n := by
  refine Nat.lt_succ_iff.1 ((Nat.div_lt_iff_lt_mul hs).2 ?_)
  have hle : n ≤ n * size := Nat.le_mul_of_pos_right n hs
  rw [Nat.succ_mul]
  omega

namespace Occupancy

/-- None of the `n` blocks from `start` on is in use. -/
def Vacant (o : Occupancy) (start n : Nat) : Prop := ∀ b, start ≤ b → b < start + n → b ∉ o.used

/-- All of the `n` blocks from `start` on are in use. -/
def Filled (o : Occupancy) (start n : Nat) : Prop := ∀ b, start ≤ b → b < start + n → b ∈ o.used

/-- A range that an allocation under `r` may take: an upper bound is stepped over; without one the
range ends before the reserved blocks or starts at the boundary. -/
def Outside (o : Occupancy) (r : Reserved) (start n : Nat) : Prop :=
  match r.high with
  | some high => high ≤ start ∨ start + n ≤ r.low
  | none => start + n ≤ r.low ∨ start = o.stop

/-- No allocation under `r` starts above this block. -/
def ceiling (o : Occupancy) (r : Reserved) : Nat := max o.stop (r.high.getD 0)

theorem lt_stop {o : Occupancy} {b : Nat} (h : b ∈ o.used) : b < o.stop := Bitmap.lt_length_of_mem h

theorem stop_le {o : Occupancy} {n : Nat} (h : ∀ b ∈ o.used, b < n) : o.stop ≤ n := Bitmap.length_le h

theorem Filled.le_stop {o : Occupancy} {start n : Nat} (h : o.Filled start n) (hn : 0 < n) :
    start + n ≤ o.stop := by
  have := lt_stop (h (start + n - 1) (by omega) (by omega))
  omega

theorem vacant_stop (o : Occupancy) (n : Nat) : o.Vacant o.stop n :=
  fun _ hb _ hm => Nat.not_lt.2 hb (lt_stop hm)

theorem nextGap_le (o : Occupancy) (i : Nat) : o.used.nextGap i ≤ max i o.stop := by
  by_cases h : o.used.nextGap i ≤ i
  · omega
  · have := lt_stop (o := o) (Bitmap.mem_of_lt_nextGap (m := o.used.nextGap i - 1) (i := i)
      (by omega) (by omega))
    omega

variable {o : Occupancy} {r : Reserved} {n : Nat}

theorem vacant_of_next? {start : Nat} (hg : start ∉ o.used)
    (hf : (o.used.next? (start + 1)).filter (· - start < n) = none) : o.Vacant start n := by
  intro b hb hbn hm
  by_cases he : b = start
  · exact hg (he ▸ hm)
  · cases hs : o.used.next? (start + 1) with
    | none => exact Bitmap.next?_eq_none hs b (by omega) hm
    | some stop =>
      rw [hs, Option.filter_eq_none_iff] at hf
      have hn := hf stop rfl
      simp only [decide_eq_true_eq] at hn
      exact (Bitmap.next?_eq_some hs).2.2 b (by omega) (by omega) hm

theorem meets_eq {start : Nat} (h : start + n < UInt64.size) :
    r.meets start n = .ok (decide (r.high.all (start < ·) ∧ r.low < start + n)) := by
  unfold Reserved.meets
  split
  · next hh => simp [word64_of_lt h, hh]
  · next hh => simp [hh]

/-- The search succeeds, and ends at a vacant range that an allocation may take. -/
theorem firstFit_spec (hroom : o.ceiling r + max n 1 < UInt64.size) (cursor skipped : Nat)
    (hc : cursor ≤ o.ceiling r) : ∃ fit, o.firstFit n r cursor skipped = .ok fit ∧
      fit.start ≤ o.ceiling r ∧ o.Vacant fit.start n ∧ o.Outside r fit.start n := by
  have hceil : o.stop ≤ o.ceiling r := Nat.le_max_left _ _
  fun_induction firstFit o n r cursor skipped with
  | case1 cursor skipped start hover =>
    have := nextGap_le o cursor
    omega
  | case2 cursor skipped start hover stop? stop hs ih =>
    have := lt_stop (o := o) (Bitmap.next?_eq_some (Option.filter_eq_some_iff.1 hs).1).2.1
    exact ih (by omega)
  | case3 cursor skipped start hover stop? hs f hm =>
    have := nextGap_le o cursor
    exact absurd ((meets_eq (by omega)).symm.trans hm) nofun
  | case4 cursor skipped start hover stop? hs hm =>
    have := nextGap_le o cursor
    have hd := Except.ok.inj ((meets_eq (by omega)).symm.trans hm)
    have hv := vacant_of_next? (Bitmap.nextGap_not_mem o.used cursor) hs
    refine ⟨_, rfl, by dsimp only; omega, hv, ?_⟩
    simp only [decide_eq_false_iff_not, not_and] at hd
    unfold Outside
    split
    · next high hh =>
      simp only [hh, Option.all_some, decide_eq_true_eq] at hd
      dsimp only
      omega
    · next hh =>
      simp only [hh, Option.all_none, true_implies] at hd
      exact .inl (by dsimp only; omega)
  | case5 cursor skipped start hover stop? hs hm high hh ih =>
    exact ih (by rw [ceiling, hh]; exact Nat.le_max_right _ _)
  | case6 cursor skipped start hover stop? hs hm hh =>
    refine ⟨_, rfl, hceil, vacant_stop o n, ?_⟩
    unfold Outside
    rw [hh]
    exact .inr rfl

theorem outside_of_not_meets {start : Nat} (h : r.meets start n = .ok false) :
    o.Outside r start n := by
  unfold Reserved.meets at h
  unfold Outside
  split at h
  · next hall =>
    unfold word64 at h
    split at h
    · have hlow := of_decide_eq_false (Except.ok.inj h)
      split
      · exact .inr (Nat.le_of_not_lt hlow)
      · exact .inl (Nat.le_of_not_lt hlow)
    · cases h
  · next hall =>
    split
    · next high hh => simpa [hh] using Or.inl (b := start + n ≤ r.low) hall
    · next hh => exact absurd (by simp [hh]) hall

/-- A search that succeeds does so at a range that an allocation may take. -/
theorem outside_of_firstFit {cursor skipped : Nat} {fit : Fit}
    (h : o.firstFit n r cursor skipped = .ok fit) : o.Outside r fit.start n := by
  fun_induction firstFit o n r cursor skipped with
  | case1 => exact nomatch h
  | case2 cursor skipped start hover stop? stop hs ih => exact ih h
  | case3 => exact nomatch h
  | case4 cursor skipped start hover stop? hs hm =>
    obtain rfl := Except.ok.inj h
    exact outside_of_not_meets hm
  | case5 cursor skipped start hover stop? hs hm high hh ih => exact ih h
  | case6 cursor skipped start hover stop? hs hm hh =>
    obtain rfl := Except.ok.inj h
    unfold Outside
    rw [hh]
    exact .inr rfl

theorem filled_iff {start : Nat} : o.Filled start n ↔ start + n ≤ o.used.nextGap start := by
  constructor
  · intro h
    refine Nat.le_of_not_lt fun hlt => ?_
    exact Bitmap.nextGap_not_mem o.used start (h _ (o.used.le_nextGap start) hlt)
  · exact fun h b hb hbn => Bitmap.mem_of_lt_nextGap hb (by omega)

instance (o : Occupancy) (start n : Nat) : Decidable (o.Filled start n) :=
  decidable_of_iff _ filled_iff.symm

theorem of_isUsed {pos length : Nat} {b : Bool} (h : o.isUsed pos length = .ok b) :
    b = decide (o.Filled (pos / o.blockSize) (blocksCovering length o.blockSize)) := by
  unfold isUsed blockOf blocksIn at h
  split at h
  · exact nomatch h
  · rw [ok_bind, ok_bind] at h
    obtain ⟨stop, hstop, h⟩ := bind_eq_ok h
    obtain ⟨-, rfl⟩ := word64_eq_ok.1 hstop
    obtain rfl := Except.ok.inj h
    exact decide_eq_decide.2 filled_iff.symm

theorem preview_spec (hn : 0 < n) (hroom : o.ceiling r + n < UInt64.size) :
    ∃ start, o.preview n r = .ok start ∧ start ≤ o.ceiling r ∧ o.Vacant start n ∧
      o.Outside r start n := by
  obtain ⟨fit, hfit, h⟩ := firstFit_spec (o := o) (r := r) (n := n) (by omega) 0 0 (Nat.zero_le _)
  exact ⟨fit.start, by rw [preview, hfit]; rfl, h⟩

theorem of_preview {start : Nat} (hn : 0 < n) (hroom : o.ceiling r + n < UInt64.size)
    (hp : o.preview n r = .ok start) :
    start ≤ o.ceiling r ∧ o.Vacant start n ∧ o.Outside r start n := by
  obtain ⟨s, hs, h⟩ := preview_spec hn hroom
  obtain rfl := Except.ok.inj (hp.symm.trans hs)
  exact h

theorem exists_isUsed {pos length : Nat} (hb : 0 < o.blockSize)
    (h : pos + length < UInt64.size) : ∃ b, o.isUsed pos length = .ok b := by
  have hcover := blocksCovering_le hb length
  have hpos := Nat.div_le_self pos o.blockSize
  unfold isUsed blockOf blocksIn
  rw [if_neg (by omega), if_neg (by omega), ok_bind, ok_bind, word64_of_lt (by omega), ok_bind]
  exact ⟨_, rfl⟩

/-- The share of `used` blocks in `total` as a whole percentage, rounded up. -/
def share (used total : Nat) : Nat :=
  if used = 0 ∨ total = 0 then 0 else (100 * used + total - 1) / total

theorem fillRateWithout_eq (h : o.headerBlocks + n < UInt64.size) : o.fillRateWithout n =
    .ok (share (o.usedCount - (o.headerBlocks + n)) (o.stop - o.headerBlocks)) := by
  rw [fillRateWithout, word64_of_lt h]
  rfl

/-- What one call makes of a map. -/
inductive Turns (o : Occupancy) : Occupancy → Prop
  | kept : Turns o o
  | taken {start stop wasteful} (hs : 0 < o.blockSize) (h : stop < UInt64.size) :
      Turns o { o with used := o.used.insertRange start stop, wasteful }
  | returned {start stop} (h : o.headerBlocks ≤ start) :
      Turns o { o with used := o.used.eraseRange start stop }
  | cleared : Turns o o.clear

theorem blockSize_pos_of_blocksIn {length : Nat} (h : o.blocksIn length = .ok n) :
    0 < o.blockSize := by
  unfold blocksIn at h
  split at h
  · cases h
  · omega

/-- What taking a range with success has found and done. -/
theorem mark_eq_ok {o' : Occupancy} {pos length : Nat} (h : o.mark pos length = .ok o') :
    ∃ start stop, 0 < o.blockSize ∧ stop < UInt64.size ∧
      o' = { o with used := o.used.insertRange start stop } := by
  unfold mark at h
  obtain ⟨start, -, h⟩ := bind_eq_ok h
  obtain ⟨blocks, hblocks, h⟩ := bind_eq_ok h
  obtain ⟨stop, hstop, h⟩ := bind_eq_ok h
  obtain ⟨free, -, h⟩ := bind_eq_ok h
  obtain ⟨hlt, rfl⟩ := word64_eq_ok.1 (liftM_eq_ok hstop)
  split at h
  · exact ⟨start, _, blockSize_pos_of_blocksIn (liftM_eq_ok hblocks), hlt, (Except.ok.inj h).symm⟩
  · cases h

theorem turns_of_mark {o' : Occupancy} {pos length : Nat} (h : o.mark pos length = .ok o') :
    o.Turns o' := by
  obtain ⟨start, stop, hsize, hlt, rfl⟩ := mark_eq_ok h
  exact .taken hsize hlt

/-- What giving back blocks with success has found and done. -/
theorem free_eq_ok {o' : Occupancy} {pos length : Nat} (h : o.free pos length = .ok o') :
    ∃ start blocks, o.blockOf pos = .ok start ∧ o.blocksIn length = .ok blocks ∧
      o.headerBlocks ≤ start ∧ o.Filled start blocks ∧
      o' = { o with used := o.used.eraseRange start (start + blocks) } := by
  unfold free at h
  obtain ⟨start, hstart, h⟩ := bind_eq_ok h
  obtain ⟨blocks, hblocks, h⟩ := bind_eq_ok h
  split at h
  · cases h
  · next hheader =>
    obtain ⟨stop, hstop, h⟩ := bind_eq_ok h
    obtain ⟨-, rfl⟩ := word64_eq_ok.1 (liftM_eq_ok hstop)
    split at h
    · cases h
    · next hgap =>
      exact ⟨start, blocks, liftM_eq_ok hstart, liftM_eq_ok hblocks, Nat.le_of_not_lt hheader,
        filled_iff.2 (Nat.le_of_not_lt hgap), (Except.ok.inj h).symm⟩

theorem turns_of_free {o' : Occupancy} {pos length : Nat} (h : o.free pos length = .ok o') :
    o.Turns o' := by
  obtain ⟨start, blocks, -, -, hheader, -, rfl⟩ := free_eq_ok h
  exact .returned hheader

/-- The allocation went to the end, although more than four times its blocks were passed over. -/
def Fit.wasteful (fit : Fit) (blocks : Nat) : Bool :=
  fit.atEnd && decide (4 * blocks < fit.skipped)

/-- What an allocation that succeeds has found and done. -/
theorem allocate_eq_ok {o' : Occupancy} {pos length : Nat}
    (h : o.allocate length r = .ok (pos, o')) : ∃ blocks fit,
      o.blocksIn length = .ok blocks ∧ o.firstFit blocks r 0 0 = .ok fit ∧
      o.posOf fit.start = .ok pos ∧ o.isFree pos length = .ok true ∧
      fit.start + blocks < UInt64.size ∧
      o' = { o with
        used := o.used.insertRange fit.start (fit.start + blocks)
        wasteful := (fit.wasteful blocks :: o.wasteful).take 4 } := by
  unfold allocate at h
  obtain ⟨blocks, hblocks, h⟩ := bind_eq_ok h
  obtain ⟨fit, hfit, h⟩ := bind_eq_ok h
  obtain ⟨pos', hpos, h⟩ := bind_eq_ok h
  obtain ⟨free, hfree, h⟩ := bind_eq_ok h
  refine ⟨blocks, fit, hblocks, hfit, ?_⟩
  have taken {wasteful : Bool} (hw : wasteful = fit.wasteful blocks) (h : (do
      let stop ← word64 (fit.start + blocks)
      return (pos', { o with
        used := o.used.insertRange fit.start stop
        wasteful := (wasteful :: o.wasteful).take 4 })) = Except.ok (pos, o')) :
      pos' = pos ∧ fit.start + blocks < UInt64.size ∧ o' = { o with
        used := o.used.insertRange fit.start (fit.start + blocks)
        wasteful := (fit.wasteful blocks :: o.wasteful).take 4 } := by
    obtain ⟨stop, hstop, h⟩ := bind_eq_ok h
    obtain ⟨hlt, rfl⟩ := word64_eq_ok.1 hstop
    obtain ⟨rfl, rfl⟩ := Prod.mk.inj (Except.ok.inj h)
    exact ⟨rfl, hlt, by rw [hw]⟩
  cases free with
  | false => exact nomatch h
  | true =>
    rw [if_pos rfl] at h
    dsimp only at h
    split at h
    · next hend =>
      obtain ⟨wasteful, hw, h⟩ := bind_eq_ok h
      obtain ⟨four, hfour, hw⟩ := map_eq_ok hw
      obtain ⟨-, rfl⟩ := word64_eq_ok.1 hfour
      obtain ⟨rfl, hdone⟩ := taken (by rw [← hw, Fit.wasteful, hend, Bool.true_and]) h
      exact ⟨hpos, hfree, hdone⟩
    · next hend =>
      obtain ⟨rfl, hdone⟩ := taken (by rw [Fit.wasteful, Bool.eq_false_of_not_eq_true hend, Bool.false_and]) h
      exact ⟨hpos, hfree, hdone⟩

theorem turns_of_allocate {o' : Occupancy} {pos length : Nat}
    (h : o.allocate length r = .ok (pos, o')) : o.Turns o' := by
  obtain ⟨blocks, fit, hblocks, -, -, -, hlt, rfl⟩ := allocate_eq_ok h
  exact .taken (blockSize_pos_of_blocksIn hblocks) hlt

section

variable {size start : Nat} (hs : o.blockSize = size) (hb : 0 < size)
include hs hb

theorem blockOf_mul (start : Nat) : o.blockOf (start * size) = .ok start := by
  rw [blockOf, hs, if_neg (by omega), Nat.mul_div_cancel _ hb]

theorem blocksIn_mul (n : Nat) : o.blocksIn (n * size) = .ok n := by
  rw [blocksIn, hs, if_neg (by omega), blocksCovering_mul hb]

theorem isUsed_eq (h : start + n < UInt64.size) : o.isUsed (start * size) (n * size) =
    .ok (decide (start + n ≤ o.used.nextGap start)) := by
  simp only [isUsed, blockOf_mul hs hb, blocksIn_mul hs hb, word64_of_lt h, ok_bind]
  rfl

theorem isFree_eq_true (h : start + n < UInt64.size) (hv : o.Vacant start n) :
    o.isFree (start * size) (n * size) = .ok true := by
  simp only [isFree, blockOf_mul hs hb, blocksIn_mul hs hb, ok_bind]
  cases hnext : o.used.next? start with
  | none => rfl
  | some used =>
    obtain ⟨h1, h2, _⟩ := Bitmap.next?_eq_some hnext
    have : start + n ≤ used := Nat.le_of_not_lt fun hlt => hv used h1 hlt h2
    simp only [word64_of_lt h, ok_bind, this, decide_true]
    rfl

theorem mark_eq (h : start + n < UInt64.size) (hv : o.Vacant start n) :
    o.mark (start * size) (n * size) =
      .ok { o with used := o.used.insertRange start (start + n) } := by
  simp only [mark, blockOf_mul hs hb, blocksIn_mul hs hb, isFree_eq_true hs hb h hv, liftM_ok,
    ok_bind, word64_of_lt h]
  rfl

theorem free_eq (h : start + n < UInt64.size) (hh : o.headerBlocks ≤ start)
    (hf : o.Filled start n) : o.free (start * size) (n * size) =
      .ok { o with used := o.used.eraseRange start (start + n) } := by
  have hg := filled_iff.1 hf
  simp only [free, blockOf_mul hs hb, blocksIn_mul hs hb, liftM_ok, ok_bind, word64_of_lt h]
  rw [if_neg (by omega), if_neg (by omega)]
  rfl

/-- An allocation takes the range that the search ends at. -/
theorem allocate_of_firstFit {fit : Fit} (hroom : (fit.start + n) * size < UInt64.size)
    (hfour : 4 * n < UInt64.size) (hfit : o.firstFit n r 0 0 = .ok fit)
    (hv : o.Vacant fit.start n) : ∃ wasteful, o.allocate (n * size) r = .ok (fit.start * size,
      { o with used := o.used.insertRange fit.start (fit.start + n), wasteful }) := by
  have hle : fit.start + n ≤ (fit.start + n) * size := Nat.le_mul_of_pos_right _ hb
  have hpos : o.posOf fit.start = .ok (fit.start * size) := by
    rw [posOf, hs]
    exact word64_of_lt (Nat.lt_of_le_of_lt (Nat.mul_le_mul_right _ (by omega)) hroom)
  simp only [allocate, blocksIn_mul hs hb, hfit, hpos,
    isFree_eq_true hs hb (show fit.start + n < _ by omega) hv, ok_bind]
  cases fit.atEnd <;>
  · simp only [if_true, if_false, Bool.false_eq_true, word64_of_lt hfour,
      word64_of_lt (show fit.start + n < _ by omega), map_ok, ok_bind]
    exact ⟨_, rfl⟩

/-- An allocation takes the range that the preview announces. -/
theorem allocate_eq (hn : 0 < n) (hroom : (o.ceiling r + n) * size < UInt64.size)
    (hfour : 4 * n < UInt64.size) (hp : o.preview n r = .ok start) :
    ∃ wasteful, o.allocate (n * size) r = .ok (start * size,
      { o with used := o.used.insertRange start (start + n), wasteful }) := by
  have hle : o.ceiling r + n ≤ (o.ceiling r + n) * size := Nat.le_mul_of_pos_right _ hb
  obtain ⟨fit, hfit, h1, h2, _⟩ := firstFit_spec (o := o) (r := r) (n := n) (by omega) 0 0
    (Nat.zero_le _)
  obtain rfl : fit.start = start := by
    rw [preview, hfit] at hp
    exact Except.ok.inj hp
  exact allocate_of_firstFit hs hb
    (Nat.lt_of_le_of_lt (Nat.mul_le_mul_right _ (by omega)) hroom) hfour hfit h2

theorem vacant_of_isFree (h : o.isFree (start * size) (n * size) = .ok true) :
    o.Vacant start n := by
  simp only [isFree, blockOf_mul hs hb, blocksIn_mul hs hb, ok_bind] at h
  cases hnext : o.used.next? start with
  | none => exact fun b hb _ => Bitmap.next?_eq_none hnext b hb
  | some used =>
    rw [hnext] at h
    obtain ⟨stop, hstop, hle⟩ := bind_eq_ok h
    obtain ⟨-, rfl⟩ := word64_eq_ok.1 hstop
    have hle := of_decide_eq_true (Except.ok.inj hle)
    exact fun b hb hbn => (Bitmap.next?_eq_some hnext).2.2 b hb (by omega)

theorem isFree_eq_false (h : start + n < UInt64.size) (hv : ¬o.Vacant start n) :
    o.isFree (start * size) (n * size) = .ok false := by
  have hv := mt (vacant_of_isFree hs hb) hv
  simp only [isFree, blockOf_mul hs hb, blocksIn_mul hs hb, ok_bind] at hv ⊢
  cases hnext : o.used.next? start with
  | none =>
    rw [hnext] at hv
    exact absurd rfl hv
  | some used =>
    rw [hnext] at hv
    dsimp only at hv ⊢
    rw [word64_of_lt h, ok_bind] at hv ⊢
    cases hle : decide (start + n ≤ used) with
    | true => exact absurd (congrArg Except.ok hle) hv
    | false => rfl

theorem mark_eq_error (h : start + n < UInt64.size) (hv : ¬o.Vacant start n) :
    o.mark (start * size) (n * size) =
      .error (.error (.corruption (.doubleMark start (start + n)))) := by
  simp only [mark, blockOf_mul hs hb, blocksIn_mul hs hb, liftM_ok, ok_bind, word64_of_lt h,
    isFree_eq_false hs hb h hv]
  rfl

theorem free_eq_headerFree (hh : start < o.headerBlocks) : o.free (start * size) (n * size) =
    .error (.error (.corruption (.headerFree start))) := by
  simp only [free, blockOf_mul hs hb, blocksIn_mul hs hb, liftM_ok, ok_bind]
  rw [if_pos hh]
  rfl

theorem free_eq_doubleFree (h : start + n < UInt64.size) (hh : o.headerBlocks ≤ start)
    (hf : ¬o.Filled start n) : o.free (start * size) (n * size) =
      .error (.error (.corruption (.doubleFree start (start + n)))) := by
  have hg := mt filled_iff.2 hf
  simp only [free, blockOf_mul hs hb, blocksIn_mul hs hb, liftM_ok, ok_bind, word64_of_lt h]
  rw [if_neg (by omega), if_pos (by omega)]
  rfl

/-- An allocation that succeeds takes the range of the preview, vacant and outside the reserved
blocks. -/
theorem of_allocate {pos : Nat} {o' : Occupancy} (h : o.allocate (n * size) r = .ok (pos, o')) :
    ∃ start wasteful, pos = start * size ∧ pos < UInt64.size ∧ o.preview n r = .ok start ∧
      o.Vacant start n ∧ o.Outside r start n ∧
      o' = { o with used := o.used.insertRange start (start + n), wasteful } := by
  obtain ⟨blocks, fit, hblocks, hfit, hpos, hfree, -, rfl⟩ := allocate_eq_ok h
  obtain rfl := Except.ok.inj ((blocksIn_mul hs hb n).symm.trans hblocks)
  rw [posOf, hs] at hpos
  obtain ⟨hlt, rfl⟩ := word64_eq_ok.1 hpos
  have hpreview : o.preview n r = .ok fit.start := by rw [preview, hfit, map_ok]
  exact ⟨fit.start, _, rfl, hlt, hpreview, vacant_of_isFree hs hb hfree,
    outside_of_firstFit hfit, rfl⟩

theorem of_free {o' : Occupancy} (h : o.free (start * size) (n * size) = .ok o') :
    o.Filled start n ∧ o' = { o with used := o.used.eraseRange start (start + n) } := by
  obtain ⟨start', blocks, hstart, hblocks, -, hfilled, rfl⟩ := free_eq_ok h
  obtain rfl := Except.ok.inj ((blockOf_mul hs hb start).symm.trans hstart)
  obtain rfl := Except.ok.inj ((blocksIn_mul hs hb n).symm.trans hblocks)
  exact ⟨hfilled, rfl⟩

omit hb in
theorem stopPos_eq (h : o.stop * size < UInt64.size) : o.stopPos = .ok (o.stop * size) := by
  rw [stopPos, posOf, hs, word64_of_lt h]

omit hb in
theorem firstGapPos_eq (h : o.stop * size < UInt64.size) :
    o.firstGapPos = .ok (o.used.nextGap 0 * size) := by
  rw [firstGapPos, posOf, hs]
  refine word64_of_lt (Nat.lt_of_le_of_lt (Nat.mul_le_mul_right _ ?_) h)
  have := nextGap_le o 0
  omega

end

end Occupancy

end BlockStore
