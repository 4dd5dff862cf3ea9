import BlockStore.Proofs.Action
import BlockStore.Proofs.FirstFit

namespace BlockStore.Occupancy

/-- The blocks that `length` bytes from the start of block `start` on lie in. -/
def span (size start length : Nat) : Finset Nat :=
  Finset.Ico start (start + blocksCovering length size)

/-- A call that changes the map. Positions are given by their block. -/
inductive Demand
  | mark (start length : Nat)
  | free (start length : Nat)
  | allocate (length : Nat) (r : Reserved)
  | clear

namespace Demand

/-- Puts what `f` makes of the map in its place. -/
def replace (f : Occupancy → Except Failure Occupancy) : Action Occupancy (Option Nat) := do
  set (← f (← get))
  return none

/-- The call on the map; an allocation answers with the position that it took. -/
def run : Demand → Action Occupancy (Option Nat)
  | mark start length => replace fun o => o.mark (start * o.blockSize) length
  | free start length => replace fun o => o.free (start * o.blockSize) length
  | allocate length r => do
    let (pos, o) ← (← get).allocate length r
    set o
    return some pos
  | clear => replace fun o => .ok o.clear

/-- What a call does to the set `U` of used blocks, and its answer: the map as a set. -/
inductive Serves (header size : Nat) : Demand → Finset Nat → Except Failure (Option Nat) →
    Finset Nat → Prop
  | marked {U start length} (h : Disjoint U (span size start length)) :
      Serves header size (mark start length) U (.ok none) (U ∪ span size start length)
  | doubleMark {U start length} (h : ¬Disjoint U (span size start length)) :
      Serves header size (mark start length) U (.error (.error (.corruption
        (.doubleMark start (start + blocksCovering length size))))) U
  | freed {U start length} (hh : header ≤ start) (h : span size start length ⊆ U) :
      Serves header size (free start length) U (.ok none) (U \ span size start length)
  | headerFree {U start length} (hh : start < header) :
      Serves header size (free start length) U (.error (.error (.corruption
        (.headerFree start)))) U
  | doubleFree {U start length} (hh : header ≤ start) (h : ¬span size start length ⊆ U) :
      Serves header size (free start length) U (.error (.error (.corruption
        (.doubleFree start (start + blocksCovering length size))))) U
  | allocated {U start length r} (h : Disjoint U (span size start length)) :
      Serves header size (allocate length r) U (.ok (some (start * size)))
        (U ∪ span size start length)
  | cleared {U} : Serves header size clear U (.ok none) (Finset.range header)

/-- The call concerns no block from this one on. -/
def reach (size : Nat) (U : Finset Nat) : Demand → Nat
  | mark start length | free start length => start + blocksCovering length size
  | allocate length r => max (U.sup (· + 1)) (r.high.getD 0) + blocksCovering length size + 1
  | clear => 0

/-- The call stays below block 2^62, and the positions of its blocks are words. -/
def Fits (size : Nat) (U : Finset Nat) (q : Demand) : Prop :=
  4 * q.reach size U < UInt64.size ∧ q.reach size U * size < UInt64.size

end Demand

/-- The map answers each question about its blocks as the set `U` does. -/
structure Mirrors (o : Occupancy) (size : Nat) (U : Finset Nat) : Prop where
  isUsed : ∀ start length, start + blocksCovering length size < UInt64.size →
    o.isUsed (start * size) length = .ok (decide (span size start length ⊆ U))
  isFree : ∀ start length, start + blocksCovering length size < UInt64.size →
    o.isFree (start * size) length = .ok (decide (Disjoint U (span size start length)))
  firstGapPos : ∃ gap, IsLeast {b | b ∉ U} gap ∧ o.firstGapPos = .ok (gap * size)
  stop : o.stop = U.sup (· + 1)
  stopPos : o.stopPos = .ok (U.sup (· + 1) * size)
  usedCount : o.usedCount = U.card

/-- The map and the set after some calls, each of them made on both. -/
inductive Tracked (header size : Nat) : Occupancy → Finset Nat → Prop
  | created : Tracked header size (create header size) (Finset.range header)
  | served {o o' : Occupancy} {U U' : Finset Nat} {q : Demand} {answer}
      (h : Tracked header size o U) (hq : q.Fits size U) (hrun : q.run o = (answer, o'))
      (hset : q.Serves header size U answer U') : Tracked header size o' U'

/-- The map has the blocks of the set, those of the header among them. -/
structure Represents (header size : Nat) (o : Occupancy) (U : Finset Nat) : Prop where
  headerBlocks : o.headerBlocks = header
  blockSize : o.blockSize = size
  mem : ∀ b, b ∈ o.used ↔ b ∈ U
  header : Finset.range header ⊆ U
  fits : U.sup (· + 1) * size < UInt64.size

section

variable {o : Occupancy} {length length' : Nat} (pos : Nat)
  (h : o.blocksIn length = o.blocksIn length')
include h

theorem isUsed_congr : o.isUsed pos length = o.isUsed pos length' := by
  simp only [isUsed, h]

theorem isFree_congr : o.isFree pos length = o.isFree pos length' := by
  simp only [isFree, h]

theorem mark_congr : o.mark pos length = o.mark pos length' := by
  simp only [mark, isFree_congr pos h, h]

theorem free_congr : o.free pos length = o.free pos length' := by
  simp only [free, h]

end

variable {header size : Nat} {o : Occupancy} {U U' : Finset Nat} {start length : Nat}

theorem blocksIn_covering (hs : o.blockSize = size) (hb : 0 < size) (length : Nat) :
    o.blocksIn length = o.blocksIn (blocksCovering length size * size) := by
  rw [blocksIn_mul hs hb, blocksIn, hs, if_neg (by omega)]

namespace Represents

variable (h : Represents header size o U)
include h

theorem vacant_iff : o.Vacant start (blocksCovering length size) ↔
    Disjoint U (span size start length) := by
  simp only [Finset.disjoint_right, span, Finset.mem_Ico, and_imp, ← h.mem]
  rfl

theorem filled_iff : o.Filled start (blocksCovering length size) ↔ span size start length ⊆ U := by
  simp only [Finset.subset_iff, span, Finset.mem_Ico, and_imp, ← h.mem]
  rfl

theorem stop_eq : o.stop = U.sup (· + 1) := Bitmap.length_eq h.mem

theorem mirrors (hb : 0 < size) : o.Mirrors size U where
  isUsed start length hlt := by
    rw [isUsed_congr _ (blocksIn_covering h.blockSize hb length), isUsed_eq h.blockSize hb hlt]
    exact congrArg Except.ok (decide_eq_decide.2 (Occupancy.filled_iff.symm.trans h.filled_iff))
  isFree start length hlt := by
    rw [isFree_congr _ (blocksIn_covering h.blockSize hb length)]
    by_cases hv : o.Vacant start (blocksCovering length size)
    · rw [isFree_eq_true h.blockSize hb hlt hv, decide_eq_true (h.vacant_iff.1 hv)]
    · rw [isFree_eq_false h.blockSize hb hlt hv, decide_eq_false (mt h.vacant_iff.2 hv)]
  firstGapPos := by
    refine ⟨o.used.nextGap 0, ⟨mt (h.mem _).2 (o.used.nextGap_not_mem 0), fun b hg => ?_⟩,
      firstGapPos_eq h.blockSize (h.stop_eq ▸ h.fits)⟩
    refine Nat.le_of_not_lt fun hlt => hg ((h.mem b).1 ?_)
    exact Bitmap.mem_of_lt_nextGap (Nat.zero_le b) hlt
  stop := h.stop_eq
  stopPos := by rw [← h.stop_eq, stopPos_eq h.blockSize (h.stop_eq ▸ h.fits)]
  usedCount := Bitmap.card_eq h.mem

/-- Taking free blocks. -/
theorem insert (hlt : (start + blocksCovering length size) * size < UInt64.size)
    (wasteful : List Bool) : Represents header size
      { o with used := o.used.insertRange start (start + blocksCovering length size), wasteful }
      (U ∪ span size start length) where
  headerBlocks := h.headerBlocks
  blockSize := h.blockSize
  mem b := by simp [span, h.mem]
  header := h.header.trans Finset.subset_union_left
  fits := by
    have hsup : (span size start length).sup (· + 1) ≤ start + blocksCovering length size :=
      Finset.sup_le fun b hb => (Finset.mem_Ico.1 hb).2
    rw [Finset.sup_union, max_mul]
    exact Nat.max_lt.2 ⟨h.fits, Nat.lt_of_le_of_lt (Nat.mul_le_mul_right _ hsup) hlt⟩

/-- Giving back blocks behind the header. -/
theorem erase (hh : header ≤ start) : Represents header size
    { o with used := o.used.eraseRange start (start + blocksCovering length size) }
    (U \ span size start length) where
  headerBlocks := h.headerBlocks
  blockSize := h.blockSize
  mem b := by simp [span, h.mem]
  header b hb := by
    have hlt := Finset.mem_range.1 hb
    refine Finset.mem_sdiff.2 ⟨h.header hb, fun hs => ?_⟩
    have := (Finset.mem_Ico.1 hs).1
    omega
  fits := Nat.lt_of_le_of_lt (Nat.mul_le_mul_right _ (Finset.sup_mono Finset.sdiff_subset)) h.fits

end Represents

theorem represents_create (hfit : header * size < UInt64.size) :
    Represents header size (create header size) (Finset.range header) where
  headerBlocks := rfl
  blockSize := rfl
  mem b := by simp [create]
  header := Finset.Subset.refl _
  fits := Nat.lt_of_le_of_lt
    (Nat.mul_le_mul_right _ (Finset.sup_le fun _ hb => Finset.mem_range.1 hb)) hfit

namespace Demand

theorem replace_eq {f : Occupancy → Except Failure Occupancy} : replace f o =
    match f o with
    | .ok o' => (.ok none, o')
    | .error e => (.error e, o) := by
  change (liftM (f o) >>= fun o' => set o' >>= fun _ => pure none :
    Action Occupancy (Option Nat)) o = _
  cases f o <;> rfl

theorem run_allocate {r : Reserved} : (allocate length r).run o =
    match o.allocate length r with
    | .ok (pos, o') => (.ok (some pos), o')
    | .error f => (.error (.fault f), o) := by
  change (liftM (o.allocate length r) >>= fun a => set a.2 >>= fun _ => pure (some a.1) :
    Action Occupancy (Option Nat)) o = _
  cases o.allocate length r <;> rfl

/-- The answer tells what became of the set. -/
theorem Serves.unique (hb : 0 < size) {q : Demand} {answer : Except Failure (Option Nat)}
    {U₁ U₂ : Finset Nat} (h₁ : q.Serves header size U answer U₁)
    (h₂ : q.Serves header size U answer U₂) : U₁ = U₂ := by
  generalize ha : answer = answer' at h₂
  cases h₁ <;> cases h₂ <;> try first | rfl | cases ha
  obtain rfl := Nat.eq_of_mul_eq_mul_right hb (Option.some.inj (Except.ok.inj ha))
  rfl

/-- Made on the map `o` and on the set `U`, the call has one answer, and the map has the blocks of the
set again. If the call fails the map is as it was. -/
def Follows (header size : Nat) (o : Occupancy) (U : Finset Nat) (q : Demand) : Prop :=
  ∃ answer o' U', q.run o = (answer, o') ∧ q.Serves header size U answer U' ∧
    Represents header size o' U' ∧ ∀ f, answer = .error f → o' = o

section

variable (h : Represents header size o U) (hb : 0 < size)
include h hb

theorem mark_follows (hq : (mark start length).Fits size U) :
    (mark start length).Follows header size o U := by
  obtain ⟨hfour, hword⟩ := hq
  obtain rfl := h.blockSize
  have hlt : start + blocksCovering length o.blockSize < UInt64.size := by
    simp only [reach] at hfour
    omega
  have hcover := mark_congr (start * o.blockSize) (blocksIn_covering rfl hb length)
  by_cases hv : o.Vacant start (blocksCovering length o.blockSize)
  · refine ⟨_, _, _, ?_, .marked (h.vacant_iff.1 hv), h.insert hword o.wasteful, nofun⟩
    rw [run, replace_eq, hcover, mark_eq rfl hb hlt hv]
  · refine ⟨_, o, _, ?_, .doubleMark (mt h.vacant_iff.2 hv), h, fun _ _ => rfl⟩
    rw [run, replace_eq, hcover, mark_eq_error rfl hb hlt hv]

theorem free_follows (hq : (free start length).Fits size U) :
    (free start length).Follows header size o U := by
  obtain ⟨hfour, -⟩ := hq
  obtain rfl := h.blockSize
  obtain rfl := h.headerBlocks
  have hlt : start + blocksCovering length o.blockSize < UInt64.size := by
    simp only [reach] at hfour
    omega
  have hcover := free_congr (start * o.blockSize) (blocksIn_covering rfl hb length)
  rcases Nat.lt_or_ge start o.headerBlocks with hh | hh
  · refine ⟨_, o, _, ?_, .headerFree hh, h, fun _ _ => rfl⟩
    rw [run, replace_eq, hcover, free_eq_headerFree rfl hb hh]
  by_cases hf : o.Filled start (blocksCovering length o.blockSize)
  · refine ⟨_, _, _, ?_, .freed hh (h.filled_iff.1 hf), h.erase hh, nofun⟩
    rw [run, replace_eq, hcover, free_eq rfl hb hlt hh hf]
  · refine ⟨_, o, _, ?_, .doubleFree hh (mt h.filled_iff.2 hf), h, fun _ _ => rfl⟩
    rw [run, replace_eq, hcover, free_eq_doubleFree rfl hb hlt hh hf]

theorem allocate_follows {r : Reserved} (hq : (allocate length r).Fits size U) :
    (allocate length r).Follows header size o U := by
  obtain ⟨hfour, hword⟩ := hq
  obtain rfl := h.blockSize
  simp only [reach, ← h.stop_eq] at hfour hword
  change 4 * (o.ceiling r + _ + 1) < _ at hfour
  change (o.ceiling r + _ + 1) * _ < _ at hword
  obtain ⟨fit, hfit, hle, hv, -⟩ := firstFit_spec (o := o) (r := r)
    (n := blocksCovering length o.blockSize) (by omega) 0 0 (Nat.zero_le _)
  have hword : (fit.start + blocksCovering length o.blockSize) * o.blockSize < UInt64.size :=
    Nat.lt_of_le_of_lt (Nat.mul_le_mul_right _ (by omega)) hword
  obtain ⟨wasteful, halloc⟩ := allocate_of_firstFit rfl hb hword (by omega) hfit hv
  refine ⟨_, _, _, ?_, .allocated (h.vacant_iff.1 hv), h.insert hword wasteful, nofun⟩
  rw [run_allocate, allocate_congr (blocksIn_covering rfl hb length), halloc]

theorem follows (hfit : header * size < UInt64.size) {q : Demand} (hq : q.Fits size U) :
    q.Follows header size o U := by
  cases q with
  | mark start length => exact mark_follows h hb hq
  | free start length => exact free_follows h hb hq
  | allocate length r => exact allocate_follows h hb hq
  | clear =>
    obtain rfl := h.blockSize
    obtain rfl := h.headerBlocks
    exact ⟨_, _, _, rfl, .cleared, represents_create hfit, nofun⟩

end

end Demand

theorem Tracked.represents (hb : 0 < size) (hfit : header * size < UInt64.size)
    (h : Tracked header size o U) : Represents header size o U := by
  induction h with
  | created => exact represents_create hfit
  | served _ hq hrun hset ih =>
    obtain ⟨answer, o', U', hrun', hset', h', -⟩ := Demand.follows ih hb hfit hq
    obtain ⟨rfl, rfl⟩ := Prod.mk.inj (hrun.symm.trans hrun')
    obtain rfl := hset.unique hb hset'
    exact h'

/-- After any calls the map is a finite set of blocks with those of the header: it answers each
question as the set does, and it grants and refuses each further call as the set does. A call that
fails leaves the map as it was. -/
theorem tracked_mirrors (hb : 0 < size) (hfit : header * size < UInt64.size)
    (h : Tracked header size o U) : Finset.range header ⊆ U ∧ o.Mirrors size U ∧
      ∀ q : Demand, q.Fits size U → ∃ answer o' U', q.run o = (answer, o') ∧
        q.Serves header size U answer U' ∧ ∀ f, answer = .error f → o' = o := by
  have hrep := h.represents hb hfit
  refine ⟨hrep.header, hrep.mirrors hb, fun q hq => ?_⟩
  obtain ⟨answer, o', U', hrun, hset, -, hfail⟩ := Demand.follows hrep hb hfit hq
  exact ⟨answer, o', U', hrun, hset, hfail⟩

/-- Two blocks are marked behind a header of two. -/
theorem tracked_mirrors_marked : ∃ o, Tracked 2 4096 o (Finset.range 2 ∪ span 4096 2 5000) ∧
    Finset.range 2 ⊆ Finset.range 2 ∪ span 4096 2 5000 ∧
    o.Mirrors 4096 (Finset.range 2 ∪ span 4096 2 5000) ∧
    ∀ q : Demand, q.Fits 4096 (Finset.range 2 ∪ span 4096 2 5000) → ∃ answer o' U',
      q.run o = (answer, o') ∧
        q.Serves 2 4096 (Finset.range 2 ∪ span 4096 2 5000) answer U' ∧
        ∀ f, answer = .error f → o' = o := by
  have ho : (Demand.mark 2 5000).run (create 2 4096) = (.ok none, ⟨2, 4096, ⟨#[0b1111]⟩, []⟩) := by
    have hmark : (create 2 4096).mark (2 * 4096) 5000 = .ok ⟨2, 4096, ⟨#[0b1111]⟩, []⟩ := by
      decide +kernel
    rw [Demand.run, Demand.replace_eq, show (create 2 4096).blockSize = 4096 from rfl, hmark]
  have h : Tracked 2 4096 _ (Finset.range 2 ∪ span 4096 2 5000) :=
    .served .created ⟨by decide, by decide⟩ ho (.marked (by decide))
  exact ⟨_, h, tracked_mirrors (by decide) (by decide) h⟩

end BlockStore.Occupancy
