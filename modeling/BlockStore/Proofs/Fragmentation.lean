import BlockStore.Proofs.FillRate

namespace BlockStore.Occupancy

/-- A call that changes a map. Positions and lengths are in bytes, and no blocks are reserved. -/
inductive Use
  | mark (pos length : Nat)
  | free (pos length : Nat)
  | allocate (length : Nat)
  | clear

/-- An allocation: the map that it found, the bytes asked for and the position that it got. -/
structure Grant where
  found : Occupancy
  length : Nat
  pos : Nat

/-- The allocation was placed at the boundary, with more than four times its blocks free below. -/
def Grant.Wasteful (g : Grant) : Prop :=
  g.pos = g.found.stop * g.found.blockSize ∧
    4 * blocksCovering g.length g.found.blockSize < g.found.stop - g.found.usedCount

instance (g : Grant) : Decidable g.Wasteful := inferInstanceAs (Decidable (_ ∧ _))

/-- A map in use, and the allocations since it was last cleared, the newest first. -/
structure Usage where
  map : Occupancy
  granted : List Grant := []

namespace Usage

/-- An error is an answer, after which the map is as it was; a fault ends the run. -/
def follow (u : Usage) : Except Failure Occupancy → Checked Usage
  | .ok map => .ok { u with map }
  | .error (.error _) => .ok u
  | .error (.fault f) => .error f

def serve (u : Usage) : Use → Checked Usage
  | .mark pos length => u.follow (u.map.mark pos length)
  | .free pos length => u.follow (u.map.free pos length)
  | .allocate length => do
    let (pos, map) ← u.map.allocate length .nothing
    return ⟨map, ⟨u.map, length, pos⟩ :: u.granted⟩
  | .clear => return ⟨u.map.clear, []⟩

end Usage

variable {o o' : Occupancy} {n c d : Nat}

/-- The blocks in use below block `b`. -/
def usedBelow (o : Occupancy) (b : Nat) : Nat := Nat.count (· ∈ o.used) b

theorem usedBelow_of_filled (hcd : c ≤ d) (h : ∀ b, c ≤ b → b < d → b ∈ o.used) :
    o.usedBelow d = o.usedBelow c + (d - c) := by
  obtain ⟨k, rfl⟩ := Nat.exists_eq_add_of_le hcd
  have hrun : Nat.count (fun i => c + i ∈ o.used) k = k :=
    Nat.count_of_forall fun i hi => h _ (by omega) (by omega)
  rw [usedBelow, Nat.count_add, hrun, usedBelow, Nat.add_sub_cancel_left]

theorem usedBelow_of_vacant (hcd : c ≤ d) (h : ∀ b, c ≤ b → b < d → b ∉ o.used) :
    o.usedBelow d = o.usedBelow c := by
  obtain ⟨k, rfl⟩ := Nat.exists_eq_add_of_le hcd
  have hrun : Nat.count (fun i => c + i ∈ o.used) k = 0 :=
    Nat.count_of_forall_not fun i hi => h _ (by omega) (by omega)
  rw [usedBelow, Nat.count_add, hrun, usedBelow, Nat.add_zero]

theorem usedBelow_nextGap (o : Occupancy) (c : Nat) :
    o.usedBelow (o.used.nextGap c) = o.usedBelow c + (o.used.nextGap c - c) :=
  usedBelow_of_filled (o.used.le_nextGap c) fun _ hb hbs => Bitmap.mem_of_lt_nextGap hb hbs

theorem usedBelow_stop (o : Occupancy) : o.usedBelow o.stop = o.usedCount := by
  rw [usedCount_eq, usedBelow, Nat.count_eq_card_filter_range, blocks]

/-- Nothing in use follows the gap that an open-ended search ends at. -/
theorem nextGap_eq_stop_iff (hc : c ≤ o.stop) :
    o.used.next? (o.used.nextGap c + 1) = none ↔ o.used.nextGap c = o.stop := by
  constructor
  · intro hnone
    have hle := nextGap_le o c
    refine Nat.le_antisymm (by omega) (stop_le fun b hb => Nat.lt_of_not_le fun hge => ?_)
    rcases Nat.eq_or_lt_of_le hge with rfl | hlt
    · exact o.used.nextGap_not_mem c hb
    · exact Bitmap.next?_eq_none hnone b hlt hb
  · intro heq
    cases hnext : o.used.next? (o.used.nextGap c + 1) with
    | none => rfl
    | some b =>
      obtain ⟨hle, hb, -⟩ := Bitmap.next?_eq_some hnext
      have := lt_stop (o := o) hb
      omega

/-- A search without reserved blocks has passed over all free blocks below its end. -/
theorem firstFit_passes {cursor skipped : Nat} {fit : Fit} (hc : cursor ≤ o.stop)
    (hskipped : skipped + o.usedBelow cursor = cursor)
    (h : o.firstFit n .nothing cursor skipped = .ok fit) :
    fit.skipped + o.usedBelow fit.start = fit.start ∧ (fit.atEnd = true ↔ fit.start = o.stop) := by
  generalize hr : Reserved.nothing = r at h
  -- Each block below the cursor was passed over as free or is in use.
  fun_induction firstFit o n r cursor skipped with
  | case1 => cases h
  | case2 cursor skipped start hover stop? stop hs ih =>
    obtain ⟨hle, hstop, hvacant⟩ := Bitmap.next?_eq_some (Option.filter_eq_some_iff.1 hs).1
    have hge : cursor ≤ start := o.used.le_nextGap cursor
    have hfilled : o.usedBelow start = _ := usedBelow_nextGap o cursor
    have hgap : o.usedBelow stop = o.usedBelow start :=
      usedBelow_of_vacant (by omega) fun b hb hbs => by
        rcases Nat.eq_or_lt_of_le hb with rfl | hlt
        · exact o.used.nextGap_not_mem cursor
        · exact hvacant b hlt hbs
    exact ih (Nat.le_of_lt (lt_stop hstop)) (by omega) h
  | case3 => cases h
  | case4 cursor skipped start hover stop? hs hm =>
    obtain rfl := Except.ok.inj h
    have hge : cursor ≤ start := o.used.le_nextGap cursor
    have hfilled : o.usedBelow start = _ := usedBelow_nextGap o cursor
    refine ⟨by dsimp only; omega, ?_⟩
    rw [Option.isNone_iff_eq_none]
    exact nextGap_eq_stop_iff hc
  | case5 cursor skipped start hover stop? hs hm =>
    subst hr
    exact absurd (Reserved.lt_of_meets hm rfl) (Nat.not_lt_zero _)
  | case6 cursor skipped start hover stop? hs hm hh =>
    subst hr
    cases hh

/-- The map notes of an allocation whether it was wasteful. -/
theorem wasteful_of_allocate {length pos : Nat} (h : o.allocate length .nothing = .ok (pos, o')) :
    o'.wasteful = (decide (Grant.Wasteful ⟨o, length, pos⟩) :: o.wasteful).take 4 := by
  obtain ⟨blocks, fit, hblocks, hfit, hpos, -, -, rfl⟩ := allocate_eq_ok h
  obtain ⟨hskipped, hend⟩ := firstFit_passes (Nat.zero_le _) rfl hfit
  have hsize := blockSize_pos_of_blocksIn hblocks
  obtain rfl : blocksCovering length o.blockSize = blocks := by
    rw [blocksIn, if_neg (by omega)] at hblocks
    exact Except.ok.inj hblocks
  obtain ⟨-, rfl⟩ := word64_eq_ok.1 hpos
  have hplaced : fit.start * o.blockSize = o.stop * o.blockSize ↔ fit.start = o.stop :=
    Nat.mul_left_inj (by omega)
  have hnoted : fit.wasteful (blocksCovering length o.blockSize) =
      decide (Grant.Wasteful ⟨o, length, fit.start * o.blockSize⟩) := by
    rw [Bool.eq_iff_iff, Fit.wasteful, Bool.and_eq_true, decide_eq_true_iff, decide_eq_true_iff,
      Grant.Wasteful, hplaced, hend]
    refine and_congr_right fun heq => ?_
    dsimp only
    have hbelow := usedBelow_stop o
    rw [heq] at hskipped
    omega
  rw [← hnoted]

namespace Usage

/-- The map has noted the last four allocations. -/
def Noted (u : Usage) : Prop :=
  u.map.wasteful = (u.granted.take 4).map fun g => decide g.Wasteful

variable {u u' : Usage}

theorem Noted.follow {r : Except Failure Occupancy} (h : u.Noted)
    (hr : ∀ o, r = .ok o → o.wasteful = u.map.wasteful) (hu : u.follow r = .ok u') : u'.Noted := by
  rcases r with (f | e) | o
  · cases hu
  · obtain rfl := Except.ok.inj hu
    exact h
  · obtain rfl := Except.ok.inj hu
    exact (hr o rfl).trans h

theorem Noted.serve (h : u.Noted) {q : Use} (hu : u.serve q = .ok u') : u'.Noted := by
  cases q with
  | mark pos length =>
    refine h.follow (fun o ho => ?_) hu
    obtain ⟨_, _, -, -, rfl⟩ := mark_eq_ok ho
    rfl
  | free pos length =>
    refine h.follow (fun o ho => ?_) hu
    obtain ⟨_, _, -, -, -, -, rfl⟩ := free_eq_ok ho
    rfl
  | allocate length =>
    obtain ⟨⟨pos, map⟩, halloc, hu⟩ := bind_eq_ok hu
    obtain rfl := Except.ok.inj hu
    refine (wasteful_of_allocate halloc).trans ?_
    rw [h, List.take_succ_cons, List.take_succ_cons, List.map_cons, ← List.map_take, List.take_take]
    rfl
  | clear =>
    obtain rfl := Except.ok.inj hu
    rfl

theorem Noted.serves {uses : List Use} (h : u.Noted) (hu : uses.foldlM Usage.serve u = .ok u') :
    u'.Noted := by
  induction uses generalizing u with
  | nil =>
    obtain rfl := Except.ok.inj hu
    exact h
  | cons q uses ih =>
    rw [List.foldlM_cons] at hu
    obtain ⟨v, hv, hu⟩ := bind_eq_ok hu
    exact ih (h.serve hv) hu

end Usage

/-- However a map has been used, it is fragmented exactly if at least two of the last four
allocations since it was new or cleared were wasteful. -/
theorem fragmented_iff {header size : Nat} {uses : List Use} {u : Usage}
    (h : uses.foldlM Usage.serve { map := create header size } = .ok u) :
    u.map.fragmented = true ↔ 2 ≤ (u.granted.take 4).countP fun g => decide g.Wasteful := by
  have hnew : Usage.Noted { map := create header size } := rfl
  rw [fragmented, hnew.serves h, List.countP_map, decide_eq_true_iff]
  rfl

/-- Five holes of five blocks, and two allocations of six. -/
def scatteredUses : List Use :=
  [7, 13, 19, 25, 31].map (fun b => .mark (b * 4096) 4096) ++ [.allocate 24576, .allocate 24576]

theorem fragmented_iff_scattered : ∃ u,
    scatteredUses.foldlM Usage.serve { map := create 2 4096 } = .ok u ∧ u.map.fragmented = true ∧
      (u.map.fragmented = true ↔ 2 ≤ (u.granted.take 4).countP fun g => decide g.Wasteful) := by
  have hrun : (scatteredUses.foldlM Usage.serve { map := create 2 4096 }).toOption.map
      (·.map.fragmented) = some true := by decide +kernel
  cases hu : scatteredUses.foldlM Usage.serve { map := create 2 4096 } with
  | error f =>
    rw [hu] at hrun
    cases hrun
  | ok u =>
    rw [hu] at hrun
    exact ⟨u, rfl, Option.some.inj hrun, fragmented_iff hu⟩

end BlockStore.Occupancy
