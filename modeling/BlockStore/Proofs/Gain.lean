import BlockStore.Proofs.FillRate

namespace BlockStore.Occupancy

variable {o : Occupancy} {header size start stop below above b : Nat}

/-- `n` free blocks lie between a used block and `start`. -/
def HoleBelow (o : Occupancy) (start n : Nat) : Prop :=
  ∃ last ∈ o.used, start = last + 1 + n ∧ o.Vacant (last + 1) n

/-- `n` free blocks lie between `stop` and the next used block. If none follows it is no hole. -/
def HoleAbove (o : Occupancy) (stop n : Nat) : Prop :=
  (stop + n ∈ o.used ∧ o.Vacant stop n) ∨ (n = 0 ∧ ∀ b ∈ o.used, b < stop)

/-- A run of used blocks that is as long as can be without the header, with the holes around it. -/
structure Island (o : Occupancy) (start stop below above : Nat) : Prop where
  header : o.headerBlocks ≤ start
  lt : start < stop
  used : ∀ b, start ≤ b → b < stop → b ∈ o.used
  first : o.headerBlocks < start → start - 1 ∉ o.used
  last : stop ∉ o.used
  below : o.HoleBelow start below
  above : o.HoleAbove stop above

theorem exists_holeBelow (hb : b ∈ o.used) (hlt : b < start) : ∃ n, o.HoleBelow start n := by
  cases h : o.used.prev? (start - 1) with
  | none => exact absurd hb (Bitmap.prev?_eq_none h b (by omega))
  | some last =>
    obtain ⟨hle, hlast, hfree⟩ := Bitmap.prev?_eq_some h
    exact ⟨start - (last + 1), last, hlast, by omega, fun c h1 h2 => hfree c (by omega) (by omega)⟩

theorem exists_holeAbove (o : Occupancy) (stop : Nat) : ∃ n, o.HoleAbove stop n := by
  cases h : o.used.next? stop with
  | none =>
    have hnone := Bitmap.next?_eq_none h
    exact ⟨0, .inr ⟨rfl, fun b hb => Nat.lt_of_not_le fun hle => hnone b hle hb⟩⟩
  | some next =>
    obtain ⟨hle, hnext, hfree⟩ := Bitmap.next?_eq_some h
    refine ⟨next - stop, .inl ⟨?_, fun c h1 h2 => hfree c h1 (by omega)⟩⟩
    rwa [Nat.add_sub_cancel' hle]

theorem Regular.exists_island (h : Regular header size o) (hpos : 0 < header) (hm : b ∈ o.used)
    (hb : header ≤ b) :
    ∃ start stop below above, o.Island start stop below above ∧ start ≤ b ∧ b < stop := by
  obtain rfl := h.headerBlocks
  -- The header lies below every start, so a used block does.
  have island (start : Nat) (hstart : o.headerBlocks ≤ start) (hle : start ≤ b)
      (hused : ∀ c, start ≤ c → c ≤ b → c ∈ o.used)
      (hfirst : o.headerBlocks < start → start - 1 ∉ o.used) :
      ∃ start stop below above, o.Island start stop below above ∧ start ≤ b ∧ b < stop := by
    obtain ⟨below, hbelow⟩ := exists_holeBelow (h.head 0 hpos) (Nat.lt_of_lt_of_le hpos hstart)
    obtain ⟨above, habove⟩ := exists_holeAbove o (o.used.nextGap b)
    have hgap := o.used.nextGap_not_mem b
    have hlt : b < o.used.nextGap b :=
      Nat.lt_of_le_of_ne (o.used.le_nextGap b) fun he => hgap (he ▸ hm)
    refine ⟨start, _, below, above, ⟨hstart, by omega, fun c h1 h2 => ?_, hfirst, hgap, hbelow,
      habove⟩, hle, hlt⟩
    rcases Nat.le_total c b with hcb | hbc
    · exact hused c h1 hcb
    · exact Bitmap.mem_of_lt_nextGap hbc h2
  cases hp : o.used.prevGap? b with
  | none =>
    have hall := Bitmap.prevGap?_eq_none hp
    exact island _ (Nat.le_refl _) hb (fun c _ => hall c) fun hlt => absurd hlt (Nat.lt_irrefl _)
  | some gap =>
    obtain ⟨hle, hgap, hrun⟩ := Bitmap.prevGap?_eq_some hp
    have hheader : o.headerBlocks ≤ gap := Nat.le_of_not_lt fun hlt => hgap (h.head gap hlt)
    have hne : gap ≠ b := fun he => hgap (he ▸ hm)
    exact island (gap + 1) (by omega) (by omega) (fun c h1 => hrun c (by omega))
      fun _ => hgap

namespace Island

variable (h : o.Island start stop below above)
include h

/-- What the scans down from a block of the run come to. -/
theorem scan_below (hhead : ∀ b < o.headerBlocks, b ∈ o.used) (hb : start ≤ b) (hs : b < stop) :
    (∃ last, o.used.prevGap? b = some (last + below) ∧ o.used.prev? (last + below) = some last ∧
      start = last + 1 + below) ∨
    (o.used.prevGap? b = none ∧ start = o.headerBlocks ∧ below = 0) := by
  obtain ⟨last, hlast, hstart, hvacant⟩ := h.below
  rcases Nat.lt_or_eq_of_le h.header with hlt | heq
  · have hgap : last + below ∉ o.used := by
      have := h.first hlt
      rwa [hstart, Nat.add_right_comm, Nat.add_sub_cancel] at this
    refine .inl ⟨last, ?_, ?_, hstart⟩
    · exact Bitmap.prevGap?_eq (by omega) hgap fun c h1 h2 => h.used c (by omega) (by omega)
    · exact Bitmap.prev?_eq (by omega) hlast fun c h1 h2 => hvacant c (by omega) (by omega)
  · refine .inr ⟨?_, heq.symm, ?_⟩
    · cases hp : o.used.prevGap? b with
      | none => rfl
      | some gap =>
        obtain ⟨hle, hgap, -⟩ := Bitmap.prevGap?_eq_some hp
        rcases Nat.lt_or_ge gap start with hlow | hhigh
        · exact absurd (hhead gap (by omega)) hgap
        · exact absurd (h.used gap hhigh (by omega)) hgap
    · refine Nat.eq_zero_of_not_pos fun hpos => hvacant (last + below) (by omega) (by omega) ?_
      exact hhead _ (by omega)

theorem nextGap (hb : start ≤ b) (hs : b < stop) : o.used.nextGap b = stop :=
  Bitmap.nextGap_eq (by omega) h.last fun c h1 h2 => h.used c (by omega) h2

theorem scan_above : ((o.used.next? stop).map (· - stop)).getD 0 = above := by
  rcases h.above with ⟨hnext, hvacant⟩ | ⟨rfl, hnone⟩
  · rw [Bitmap.next?_eq (by omega) hnext hvacant, Option.map_some, Option.getD_some]
    omega
  · cases hn : o.used.next? stop with
    | none => rfl
    | some next =>
      obtain ⟨hle, hnext, -⟩ := Bitmap.next?_eq_some hn
      exact absurd (hnone next hnext) (Nat.not_lt.2 hle)

theorem gain_eq (hhead : ∀ b < o.headerBlocks, b ∈ o.used) (hb : start ≤ b) (hs : b < stop) :
    o.gain b = min ((below + above + 1) * 1000 / (stop - start)) (UInt32.size - 1) := by
  have hlt := h.lt
  have hpos : max (stop - start) 1 = stop - start := by omega
  unfold gain
  rw [if_pos (h.used b hb hs)]
  rcases h.scan_below hhead hb hs with ⟨last, hgap, hlast, hstart⟩ | ⟨hgap, hstart, hbelow⟩
  · have hrun : last + below + 1 = start := by omega
    have hhole : start - (last + 1) = below := by omega
    simp only [hgap, hlast, h.nextGap hb hs, h.scan_above, Option.map_some, Option.getD_some, hrun,
      hhole, hpos]
  · have hrun : min o.headerBlocks b = start := by omega
    simp only [hgap, h.nextGap hb hs, h.scan_above, hrun, hpos, hbelow]

/-- In a file of no more than 2^50 blocks the score is computed without overflow. -/
theorem score_lt (hstop : o.stop ≤ 2 ^ 50) : (below + above + 1) * 1000 < UInt64.size := by
  have hstart := lt_stop (h.used start (Nat.le_refl _) h.lt)
  have hbelow : below ≤ start := by
    obtain ⟨last, -, hlast, -⟩ := h.below
    omega
  have habove : above ≤ o.stop := by
    rcases h.above with ⟨hnext, -⟩ | ⟨rfl, -⟩
    · have := lt_stop hnext
      omega
    · omega
  simp only [UInt64.size]
  omega

end Island

/-- A free block scores nothing. Behind the header every used block lies in a run with a hole on
either side, and all blocks of the run score what the holes and one block make in thousandths of
the run, as far as that is a word of 32 bits. -/
theorem gain_exact (h : Reachable header size o) (hpos : 0 < header) :
    (∀ b, b ∉ o.used → o.gain b = 0) ∧
    (∀ b ∈ o.used, header ≤ b → ∃ start stop below above,
      o.Island start stop below above ∧ start ≤ b ∧ b < stop) ∧
    (∀ start stop below above, o.Island start stop below above →
      (o.stop ≤ 2 ^ 50 → (below + above + 1) * 1000 < UInt64.size) ∧
      ∀ b, start ≤ b → b < stop →
        o.gain b = min ((below + above + 1) * 1000 / (stop - start)) (UInt32.size - 1)) ∧
    ∀ b c, header ≤ b → b ≤ c → (∀ d, b ≤ d → d ≤ c → d ∈ o.used) → o.gain b = o.gain c := by
  have hreg := h.regular
  have hhead : ∀ b < o.headerBlocks, b ∈ o.used := hreg.headerBlocks ▸ hreg.head
  refine ⟨fun b hb => if_neg hb, fun b hm hb => hreg.exists_island hpos hm hb,
    fun start stop below above hi => ⟨hi.score_lt, fun b => hi.gain_eq hhead⟩, ?_⟩
  intro b c hb hbc hused
  obtain ⟨start, stop, below, above, hi, h1, h2⟩ :=
    hreg.exists_island hpos (hused b (Nat.le_refl _) hbc) hb
  have hc : c < stop := Nat.lt_of_not_le fun hle => hi.last (hused stop (by omega) hle)
  rw [hi.gain_eq hhead h1 h2, hi.gain_eq hhead (by omega) hc]

/-- Behind a header of two: a hole of two blocks, two used ones, a hole of four and a used one. -/
def scattered : Occupancy := ⟨2, 4096, ⟨#[0b10000110011]⟩, []⟩

theorem reachable_scattered : Reachable 2 4096 scattered := by
  have hpair : (create 2 4096).mark (4 * 4096) 8192 = .ok ⟨2, 4096, ⟨#[0b110011]⟩, []⟩ := by
    decide +kernel
  have hlast : Occupancy.mark ⟨2, 4096, ⟨#[0b110011]⟩, []⟩ (10 * 4096) 4096 = .ok scattered := by
    decide +kernel
  have hfirst : ((Demand.mark 4 8192).run (create 2 4096)).2 = ⟨2, 4096, ⟨#[0b110011]⟩, []⟩ := by
    rw [Demand.run, Demand.replace_eq, show (create 2 4096).blockSize = 4096 from rfl, hpair]
  have hsecond : ((Demand.mark 10 4096).run ⟨2, 4096, ⟨#[0b110011]⟩, []⟩).2 = scattered := by
    rw [Demand.run, Demand.replace_eq, hlast]
  exact hsecond ▸ .ran _ (hfirst ▸ .ran _ (.created (by decide)))

theorem island_scattered : scattered.Island 4 6 2 4 where
  header := by decide
  lt := by decide
  used b h1 h2 := by
    obtain rfl | rfl : b = 4 ∨ b = 5 := by omega
    · decide
    · decide
  first _ := by decide
  last := by decide
  below := ⟨1, by decide, rfl, fun b h1 h2 => by
    obtain rfl | rfl : b = 2 ∨ b = 3 := by omega
    · decide
    · decide⟩
  above := .inl ⟨by decide, fun b h1 h2 => by
    obtain rfl | rfl | rfl | rfl : b = 6 ∨ b = 7 ∨ b = 8 ∨ b = 9 := by omega
    all_goals decide⟩

/-- The holes and one block make seven blocks, 3500 thousandths of the run of two. -/
theorem gain_exact_scattered : Reachable 2 4096 scattered ∧ 0 < 2 ∧
    scattered.Island 4 6 2 4 ∧ scattered.gain 5 = 3500 ∧ scattered.gain 4 = scattered.gain 5 := by
  obtain ⟨-, -, hisland, hrun⟩ := gain_exact reachable_scattered (by decide)
  refine ⟨reachable_scattered, by decide, island_scattered, ?_, ?_⟩
  · exact (hisland 4 6 2 4 island_scattered).2 5 (by decide) (by decide)
  · exact hrun 4 5 (by decide) (by decide) fun d h1 h2 => island_scattered.used d h1 (by omega)

end BlockStore.Occupancy
