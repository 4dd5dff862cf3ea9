import BlockStore.Proofs.HeapOrder
import BlockStore.Proofs.Selection

namespace BlockStore.Compaction

open Heap

variable {o : Occupancy} {cs seen seen' dropped : List Chunk} {c d x : Chunk} {rest : Array Chunk}
  {s : Selection} {first budget passBytes : Nat}

theorem keepsLonger_iff : keepsLonger c d ↔ d.priority.toNat < c.priority.toNat ∨
    c.priority.toNat = d.priority.toNat ∧ c.first ≤ d.first := by
  simp only [keepsLonger, Bool.or_eq_true, Bool.and_eq_true, decide_eq_true_eq,
    UInt32.lt_iff_toNat_lt, UInt64.le_iff_toNat_le, ← UInt32.toNat_inj, Chunk.first]

theorem keepsLonger_total (c d : Chunk) : keepsLonger c d ∨ keepsLonger d c := by
  simp only [keepsLonger_iff]
  omega

theorem keepsLonger_trans (c d e : Chunk) (h : keepsLonger c d) (h' : keepsLonger d e) :
    keepsLonger c e := by
  simp only [keepsLonger_iff] at *
  omega

namespace Selection

/-- The first chunk to be given up is on top, and the lengths are summed up. -/
structure Sound (s : Selection) : Prop where
  heap : IsHeap keepsLonger s.heap
  blocks : s.blocks = blocksOf s.heap.toList

theorem Sound.nil : Sound {} := ⟨fun j hj => absurd hj (Nat.not_lt_zero j), rfl⟩

theorem Sound.push (h : s.Sound) (c : Chunk) :
    Sound ⟨Heap.push keepsLonger s.heap c, s.blocks + c.len.toNat⟩ := by
  refine ⟨isHeap_push keepsLonger_total keepsLonger_trans h.heap c, ?_⟩
  rw [blocksOf_perm (push_perm keepsLonger s.heap c), blocksOf_cons, h.blocks, Nat.add_comm]

/-- What is given up ranks below all that is kept. -/
theorem Sound.pop (h : s.Sound) (hpop : pop? keepsLonger s.heap = some (x, rest)) :
    Sound ⟨rest, s.blocks - x.len.toNat⟩ ∧ ∀ d ∈ s.heap.toList, keepsLonger d x := by
  obtain ⟨hrest, hx⟩ := isHeap_of_pop? keepsLonger_total keepsLonger_trans h.heap hpop
  refine ⟨⟨hrest, ?_⟩, fun d hd => hx d (Array.mem_toList_iff.1 hd)⟩
  rw [h.blocks, blocksOf_perm (perm_of_pop? hpop), blocksOf_cons, Nat.add_sub_cancel_left]

theorem Sound.trim (h : s.Sound) : (s.trim budget).Sound := by
  fun_induction Selection.trim budget s with
  | case1 => exact h
  | case2 => exact h
  | case3 s hb x rest hpop ih => exact ih (h.pop hpop).1

theorem Sound.blocks_trim_le (h : s.Sound) : (s.trim budget).blocks ≤ budget := by
  fun_induction Selection.trim budget s with
  | case1 s hb => exact hb
  | case2 s hb hpop =>
    rw [h.blocks, eq_empty_of_pop? hpop]
    exact Nat.zero_le budget
  | case3 s hb x rest hpop ih => exact ih (h.pop hpop).1

theorem Sound.add (h : s.Sound) (c : Chunk) : (s.add budget c).Sound := (h.push c).trim

/-- Chunks that fit in alone are never all given up. -/
theorem Sound.exists_trim (h : s.Sound)
    (hfit : ∀ d ∈ s.heap.toList, keepsLonger d c → d.len.toNat ≤ budget)
    (hd : ∃ d ∈ s.heap.toList, keepsLonger d c) :
    ∃ d ∈ (s.trim budget).heap.toList, keepsLonger d c := by
  fun_induction Selection.trim budget s with
  | case1 => exact hd
  | case2 => exact hd
  | case3 s hb x rest hpop ih =>
    obtain ⟨hrest, hlast⟩ := h.pop hpop
    have hperm := perm_of_pop? hpop
    have hsub (d : Chunk) (hd : d ∈ rest.toList) : d ∈ s.heap.toList :=
      hperm.mem_iff.2 (List.mem_cons_of_mem x hd)
    refine ih hrest (fun d hd => hfit d (hsub d hd)) ?_
    by_cases hx : keepsLonger x c
    · -- Alone `x` would have fitted, and what else is kept ranks at least as high.
      have hne : rest.toList ≠ [] := by
        intro hnil
        have hlen := hfit x (hperm.mem_iff.2 List.mem_cons_self) hx
        rw [h.blocks, blocksOf_perm hperm, hnil, blocksOf_cons, blocksOf_nil] at hb
        exact hb hlen
      obtain ⟨y, hy⟩ := List.exists_mem_of_ne_nil _ hne
      exact ⟨y, hy, keepsLonger_trans _ _ _ (hlast y (hsub y hy)) hx⟩
    · obtain ⟨d, hd, hdc⟩ := hd
      rcases List.mem_cons.1 (hperm.mem_iff.1 hd) with rfl | hd
      · exact absurd hdc hx
      · exact ⟨d, hd, hdc⟩

theorem Sound.exists_foldl (h : s.Sound)
    (hfit : ∀ d, d ∈ s.heap.toList ∨ d ∈ cs → keepsLonger d c → d.len.toNat ≤ budget)
    (hc : c ∈ cs ∨ ∃ d ∈ s.heap.toList, keepsLonger d c) :
    ∃ d ∈ (cs.foldl (Selection.add budget) s).heap.toList, keepsLonger d c := by
  induction cs generalizing s with
  | nil => exact hc.resolve_left List.not_mem_nil
  | cons x cs ih =>
    have hsub (d : Chunk) (hd : d ∈ (s.add budget x).heap.toList) : d ∈ x :: s.heap.toList :=
      (add_subperm budget s x).subset hd
    have hpush (d : Chunk) : d ∈ (Heap.push keepsLonger s.heap x).toList ↔ d ∈ x :: s.heap.toList :=
      (push_perm keepsLonger s.heap x).mem_iff
    have hpushed (d : Chunk) (hd : d ∈ x :: s.heap.toList) (hdc : keepsLonger d c) :
        ∃ d ∈ (s.add budget x).heap.toList, keepsLonger d c := by
      refine (h.push x).exists_trim (fun e he hec => hfit e ?_ hec) ⟨d, (hpush d).2 hd, hdc⟩
      rcases List.mem_cons.1 ((hpush e).1 he) with rfl | he
      · exact .inr List.mem_cons_self
      · exact .inl he
    refine ih (h.add x) (fun d hd hdc => hfit d ?_ hdc) ?_
    · rcases hd with hd | hd
      · rcases List.mem_cons.1 (hsub d hd) with rfl | hd
        · exact .inr List.mem_cons_self
        · exact .inl hd
      · exact .inr (List.mem_cons_of_mem x hd)
    · rcases hc with hc | ⟨d, hd, hdc⟩
      · rcases List.mem_cons.1 hc with rfl | hc
        · exact .inr (hpushed c List.mem_cons_self ((keepsLonger_total c c).elim id id))
        · exact .inl hc
      · exact .inr (hpushed d (List.mem_cons_of_mem x hd) hdc)

end Selection

open Selection

/-- Of the chunks seen some have been dropped: none of them would fit in together with all the
chunks seen that rank at least as high. -/
structure Kept (budget : Nat) (seen dropped : List Chunk) (s : Selection) : Prop extends
    s.Sound where
  split : (s.heap.toList ++ dropped).Perm seen
  crowded : ∀ c ∈ dropped, budget < blocksOf (seen.filter (keepsLonger · c))

theorem Kept.push (h : Kept budget seen dropped s) (c : Chunk) :
    Kept budget (c :: seen) dropped ⟨Heap.push keepsLonger s.heap c, s.blocks + c.len.toNat⟩ where
  toSound := h.toSound.push c
  split := ((push_perm keepsLonger s.heap c).append_right dropped).trans (h.split.cons c)
  crowded d hd := Nat.lt_of_lt_of_le (h.crowded d hd)
    (blocksOf_le ((List.sublist_cons_self c seen).filter _).subperm)

/-- All that is kept ranks at least as high as what is given up, and that was too much. -/
theorem Kept.pop (h : Kept budget seen dropped s) (hb : budget < s.blocks)
    (hpop : pop? keepsLonger s.heap = some (x, rest)) :
    Kept budget seen (x :: dropped) ⟨rest, s.blocks - x.len.toNat⟩ where
  toSound := (h.toSound.pop hpop).1
  split := List.perm_middle.trans (((perm_of_pop? hpop).append_right dropped).symm.trans h.split)
  crowded := by
    refine List.forall_mem_cons.2 ⟨Nat.lt_of_lt_of_le hb ?_, h.crowded⟩
    have hall : s.heap.toList.filter (keepsLonger · x) = s.heap.toList :=
      List.filter_eq_self.2 (h.toSound.pop hpop).2
    rw [h.blocks, ← hall]
    refine blocksOf_le (((List.sublist_append_left s.heap.toList dropped).filter _).subperm.trans ?_)
    exact (h.split.filter _).subperm

theorem Kept.trim (h : Kept budget seen dropped s) :
    ∃ dropped', Kept budget seen dropped' (s.trim budget) := by
  fun_induction Selection.trim budget s generalizing dropped with
  | case1 => exact ⟨dropped, h⟩
  | case2 => exact ⟨dropped, h⟩
  | case3 s hb x rest hpop ih => exact ih (h.pop (Nat.lt_of_not_le hb) hpop)

theorem Kept.perm (h : Kept budget seen dropped s) (hp : seen.Perm seen') :
    Kept budget seen' dropped s where
  toSound := h.toSound
  split := h.split.trans hp
  crowded c hc := by
    rw [← blocksOf_perm (hp.filter _)]
    exact h.crowded c hc

theorem Kept.nil : Kept budget [] [] {} where
  toSound := .nil
  split := .refl []
  crowded := List.forall_mem_nil _

theorem Kept.foldl (h : Kept budget seen dropped s) (hb : s.blocks ≤ budget) (cs : List Chunk) :
    ∃ dropped', Kept budget (seen ++ cs) dropped' (cs.foldl (add budget) s) ∧
      (cs.foldl (add budget) s).blocks ≤ budget := by
  induction cs generalizing seen dropped s with
  | nil => exact ⟨dropped, by rwa [List.append_nil], hb⟩
  | cons c cs ih =>
    obtain ⟨dropped', h'⟩ := (h.push c).trim
    obtain ⟨dropped'', h''⟩ := ih h' (h.push c).toSound.blocks_trim_le
    exact ⟨dropped'', h''.1.perm List.perm_middle.symm, h''.2⟩

/-- The chunk `d` ranks at least as high as `c`: by what the move gains, then by the lower block. -/
def AsHigh (o : Occupancy) (d c : Chunk) : Prop :=
  o.gain c.first < o.gain d.first ∨ o.gain c.first = o.gain d.first ∧ d.first ≤ c.first

instance (o : Occupancy) (d c : Chunk) : Decidable (AsHigh o d c) :=
  inferInstanceAs (Decidable (_ ∨ _ ∧ _))

theorem gain_lt (o : Occupancy) (b : Nat) : o.gain b < UInt32.size := by
  unfold Occupancy.gain
  split
  · split
    exact Nat.lt_of_le_of_lt (Nat.min_le_right ..) (by decide)
  · decide

theorem toNat_weigh_priority (o : Occupancy) (c : Chunk) :
    (weigh o c).priority.toNat = o.gain c.first :=
  UInt32.toNat_ofNat_of_lt' (gain_lt o c.first)

theorem keepsLonger_weigh_iff : keepsLonger (weigh o d) (weigh o c) ↔ AsHigh o d c := by
  rw [keepsLonger_iff, toNat_weigh_priority, toNat_weigh_priority, AsHigh]
  exact or_congr_right (and_congr_left fun _ => eq_comm)

theorem keepsLonger_eq_asHigh (hd : d ∈ movable o first cs) (hc : c ∈ movable o first cs) :
    keepsLonger d c = decide (AsHigh o d c) := by
  obtain ⟨d₀, -, rfl⟩ := List.mem_map.1 hd
  obtain ⟨c₀, -, rfl⟩ := List.mem_map.1 hc
  exact Bool.eq_iff_iff.2 (keepsLonger_weigh_iff.trans (decide_eq_true_iff).symm)

theorem choose_eq_of_saved (first passBytes : Nat) (hb : 0 < o.blockSize)
    (hcs : ∀ c ∈ cs, c.saved → c.first < 2 ^ 51) :
    choose o cs first passBytes = .ok (if passBytes / blockSize = 0 then [] else
      ((movable o first cs).foldl (add (passBytes / blockSize)) {}).heap.toList.mergeSort
        (·.block ≤ ·.block)) := by
  refine choose_eq first passBytes hb fun c hc hs => ?_
  have hfirst := hcs c hc hs
  have hlen := c.len.toNat_lt
  rw [c.after_eq, mul_blockSize]
  simp only [UInt64.size]
  omega

/-- Of the chunks that may move, those that rank highest are chosen: one is left out only if it does
not fit into the budget together with all the others that rank at least as high. -/
theorem choose_keeps_highest (hb : 0 < o.blockSize)
    (hcs : ∀ c ∈ cs, c.saved → c.first < 2 ^ 51) :
    ∃ chosen, choose o cs first passBytes = .ok chosen ∧ (chosen ≠ [] →
      chosen.Pairwise (·.first ≤ ·.first) ∧ blocksOf chosen ≤ passBytes / blockSize ∧
      ∃ dropped, (chosen ++ dropped).Perm (movable o first cs) ∧ ∀ c ∈ dropped,
        passBytes / blockSize < blocksOf ((movable o first cs).filter (AsHigh o · c))) := by
  have hchoose := choose_eq_of_saved first passBytes hb hcs
  refine ⟨_, hchoose, fun hne => ⟨(of_choose hchoose).2, ?_⟩⟩
  split at hne
  · exact absurd rfl hne
  · next hbudget =>
    rw [if_neg hbudget]
    obtain ⟨dropped, hkept, hle⟩ := Kept.nil.foldl (Nat.zero_le _) (movable o first cs)
    rw [List.nil_append] at hkept
    refine ⟨?_, dropped, ((List.mergeSort_perm ..).append_right dropped).trans hkept.split, ?_⟩
    · rw [blocksOf_perm (List.mergeSort_perm ..), ← hkept.blocks]
      exact hle
    · intro c hc
      have hmem := hkept.split.subset (List.mem_append_right _ hc)
      have hcrowded := hkept.crowded c hc
      rwa [List.filter_congr fun d hd => keepsLonger_eq_asHigh hd hmem] at hcrowded

/-- Blocks 0, 1 and 3 to 5 in use. -/
def packed : Occupancy := ⟨headerBlocks, blockSize, ⟨#[0b111011]⟩, []⟩

def short : Chunk := { id := 1, block := 5, len := 1 }

def long : Chunk := { id := 2, block := 3, len := 2 }

/-- Of two chunks of one run the one further ahead stays in the selection. -/
theorem choose_keeps_highest_packed :
    choose packed [short, long] 2 (2 * blockSize) = .ok [weigh packed long] ∧
    blocksOf [weigh packed long] ≤ 2 ∧
    ∃ dropped, ([weigh packed long] ++ dropped).Perm (movable packed 2 [short, long]) ∧
      ∀ c ∈ dropped,
        2 < blocksOf ((movable packed 2 [short, long]).filter (AsHigh packed · c)) := by
  obtain ⟨chosen, hchosen, h⟩ :=
    @choose_keeps_highest packed [short, long] 2 (2 * blockSize) (by decide) (by decide)
  have hrun : choose packed [short, long] 2 (2 * blockSize) = .ok [weigh packed long] := by
    decide +kernel
  obtain rfl := Except.ok.inj (hrun.symm.trans hchosen)
  exact ⟨hrun, (h (List.cons_ne_nil _ _)).2⟩

theorem exists_mem_sorted (hc : c ∈ cs) (hm : Movable o first c)
    (hfit : ∀ d ∈ cs, Movable o first d → AsHigh o d c → d.len.toNat ≤ budget) :
    ∃ d ∈ ((movable o first cs).foldl (add budget) {}).heap.toList.mergeSort (·.block ≤ ·.block),
      AsHigh o d c := by
  have hmem : weigh o c ∈ movable o first cs :=
    List.mem_map_of_mem (List.mem_filter.2 ⟨hc, decide_eq_true hm⟩)
  have hfits (d : Chunk) (hd : d ∈ movable o first cs) (hdc : keepsLonger d (weigh o c)) :
      d.len.toNat ≤ budget := by
    obtain ⟨e, he, rfl⟩ := List.mem_map.1 hd
    obtain ⟨he, hem⟩ := List.mem_filter.1 he
    exact hfit e he (of_decide_eq_true hem) (keepsLonger_weigh_iff.1 hdc)
  obtain ⟨dropped, hkept, -⟩ := Kept.nil.foldl (Nat.zero_le budget) (movable o first cs)
  obtain ⟨d, hd, hdc⟩ := Sound.nil.exists_foldl
    (fun d hd => hfits d (hd.resolve_left List.not_mem_nil)) (.inl hmem)
  have hdmem : d ∈ movable o first cs := hkept.split.subset (List.mem_append_left _ hd)
  rw [keepsLonger_eq_asHigh hdmem hmem] at hdc
  exact ⟨d, (List.mergeSort_perm ..).mem_iff.2 hd, of_decide_eq_true hdc⟩

/-- Some chunk is chosen if among those that may move one fits into the budget and no longer one
ranks as high. -/
theorem exists_mem_choose (hb : 0 < o.blockSize) (hcs : ∀ c ∈ cs, c.saved → c.first < 2 ^ 51)
    (hpass : blockSize ≤ passBytes) (hc : c ∈ cs) (hm : Movable o first c)
    (hfit : ∀ d ∈ cs, Movable o first d → AsHigh o d c → d.len.toNat ≤ passBytes / blockSize) :
    ∃ chosen, choose o cs first passBytes = .ok chosen ∧ ∃ d ∈ chosen, AsHigh o d c := by
  have hbudget : passBytes / blockSize ≠ 0 := (Nat.div_pos hpass (by decide)).ne'
  rw [choose_eq_of_saved first passBytes hb hcs, if_neg hbudget]
  exact ⟨_, rfl, exists_mem_sorted hc hm hfit⟩

theorem exists_mem_choose_packed : ∃ chosen,
    choose packed [short, long] 2 (2 * blockSize) = .ok chosen ∧
      ∃ d ∈ chosen, AsHigh packed d short :=
  exists_mem_choose (by decide) (by decide) (by decide) List.mem_cons_self (by decide +kernel)
    (by decide +kernel)

-- The longer chunk ranks higher: it drives the shorter one out, and does not fit in itself.
example : choose packed [short, long] 2 blockSize = .ok [] := by decide +kernel

end BlockStore.Compaction
