import BlockStore.Proofs.Pass

namespace BlockStore

namespace Occupancy

variable {o : Occupancy} {n : Nat}

theorem fillRateWithout_eq_ok (h : o.headerBlocks + n < UInt64.size) :
    ∃ rate, o.fillRateWithout n = .ok rate := ⟨_, fillRateWithout_eq h⟩

end Occupancy

theorem Catalog.removedBlocks_eq (c : Catalog) :
    c.removedBlocks = (c.removed.map fun d => d.len.toNat).sum := by
  have fold (n : Nat) (ds : List Chunk) :
      ds.foldl (fun n d => n + d.len.toNat) n = n + (ds.map fun d => d.len.toNat).sum := by
    induction ds generalizing n with
    | nil => rfl
    | cons d ds ih => rw [List.foldl_cons, ih, List.map_cons, List.sum_cons, Nat.add_assoc]
  rw [removedBlocks, fold, Nat.zero_add]

namespace Store

open BlockStore.Action Engine Device

variable {δ : Type} [Device δ] [Lawful δ] {v v' v₁ : Store δ} {m : Medium} {E : Edition}
  {live committed : Contents} {ds : List Chunk} {commits top target passBytes spare : Nat}

namespace Consistent

theorem unweighed (h : Consistent v m E live committed bare) :
    v.records.chunks.map Chunk.unweighed = v.records.chunks := by
  refine (List.map_congr_left fun c hc => Chunk.unweighed_eq ?_).trans (List.map_id _)
  rcases Catalog.mem_chunks.1 hc with hd | hr
  · exact h.plain c hd
  · exact congrArg Chunk.priority (h.settled.sound.root c (h.root.symm.trans hr))

theorem removedBlocks_le (h : Consistent v m E live committed bare) :
    v.records.removedBlocks ≤ v.engine.occupancy.stop := by
  have hsub : v.records.removed.Subperm v.records.held := (List.sublist_append_right ..).subperm
  rw [Catalog.removedBlocks_eq]
  exact Chunk.sum_len_le (h.layout.sub hsub).1 fun c hc => h.layout.after_le_stop (hsub.subset hc)

/-- What the choice of a compaction leads to can be moved. -/
theorem chosen (h : Consistent v m E live committed bare) {c : Chunk}
    (hsub : ((c :: ds).map Chunk.unweighed).Subperm (v.records.chunks.map Chunk.unweighed))
    (hsorted : (c :: ds).Pairwise (·.first ≤ ·.first)) : Chosen v c.first (c :: ds) := by
  have hids := Chunk.nodup_ids_of_subperm hsub (Catalog.nodup_ids_chunks h.ids_nodup)
  rw [h.unweighed] at hsub
  have hheld := hsub.trans v.records.chunks_subperm
  have hlens : ((c :: ds).map Chunk.unweighed).map (fun d => d.len.toNat) =
      (c :: ds).map fun d => d.len.toNat := by
    rw [List.map_map]
    rfl
  refine ⟨fun d hd => ?_, hids, ?_⟩
  · refine ⟨d.unweighed, (Catalog.find?_eq_some h.ids_nodup).2
      ⟨hsub.subset (List.mem_map_of_mem hd), rfl⟩, ?_, rfl⟩
    rcases List.mem_cons.1 hd with rfl | hd
    · exact Nat.le_refl _
    · exact (List.pairwise_cons.1 hsorted).1 d hd
  · rw [← hlens]
    exact Chunk.sum_len_le (h.layout.sub hheld).1 fun d hd =>
      h.layout.after_le_stop (hheld.subset hd)

end Consistent

/-- The records count the commits. -/
def Counts (answered : Bool) (v v' : Store δ) : Prop :=
  match answered with
  | true => v.records.version < v'.records.version
  | false => v'.records.version = v.records.version

omit [Device δ] [Lawful δ] in
theorem Counts.of_version {answered : Bool} (h : Counts answered v v₁)
    (hv : v₁.records.version = v'.records.version) : Counts answered v v' := by
  unfold Counts at *
  rwa [← hv]

/-- Where a compaction leads, given whether a commit in it has answered. -/
structure Packed (v : Store δ) (committed live : Contents) (answered : Bool) (v' : Store δ) : Prop where
  advanced : Advanced v v'
  counts : Counts answered v v'
  consistent : ∃ m E, Consistent v' m E live (.latest answered committed live) bare

theorem Packed.refl (h : Consistent v m E live committed bare) : Packed v committed live false v :=
  ⟨(Alike.refl v).advanced, rfl, _, _, h⟩

/-- With nothing committed so far, what comes next decides. -/
theorem Packed.then {answered : Bool} (h : Packed v committed live false v₁)
    (h' : Packed v₁ committed live answered v') : Packed v committed live answered v' := by
  have hsame : v₁.records.version = v.records.version := h.counts
  have hcounts := h'.counts
  refine ⟨h.advanced.trans h'.advanced, ?_, h'.consistent⟩
  unfold Counts at *
  rwa [hsame] at hcounts

/-- After a commit there is nothing new to be committed. -/
theorem Packed.of_live {answered : Bool} (hadv : Advanced v v₁)
    (hlt : v.records.version < v₁.records.version) (h : Packed v₁ live live answered v') :
    Packed v committed live true v' := by
  obtain ⟨hadv', -, m', E', h'⟩ := h
  rw [Contents.latest_self] at h'
  exact ⟨hadv.trans hadv', UInt64.lt_of_lt_of_le hlt hadv'.version_le, m', E', h'⟩

/-- One pass over what the choice yields, if it yields anything. -/
theorem pass_ends (h : Consistent v m E live committed bare)
    (hreuse : v.engine.reuse = true) (hnothing : v.engine.reserved = .nothing)
    (hv : Roomy v (commits + 3) v.engine.occupancy.stop) (hroom : Ample δ v.engine.occupancy.stop) :
    (Volume.compactToStore passBytes).Ends v (fun answered _ => Packed v committed live answered)
      fun answered => CutOff (.latest answered committed live) live := by
  have hbound : v.engine.occupancy.stop * blockSize < UInt64.size := by
    have := hroom.percent
    simp only [mul_blockSize] at *
    omega
  have hchunks : ∀ c ∈ v.records.chunks, c.after * blockSize < UInt64.size := fun c hc =>
    Nat.lt_of_le_of_lt (Nat.mul_le_mul_right _
      (h.layout.after_le_stop (v.records.chunks_subperm.subset hc))) hbound
  obtain ⟨chosen, hchoose, hsub, hsorted⟩ := Compaction.choose_spec
    (v.engine.occupancy.used.nextGap 0 * blockSize / blockSize) passBytes h.layout.blockSize hchunks
  unfold Volume.compactToStore
  rw [Halting.ends_get_bind,
    Halting.ends_checked_bind (Occupancy.firstGapPos_eq h.layout.blockSize hbound)]
  refine (Halting.ends_checked_bind hchoose).2 ?_
  cases chosen with
  | nil => exact Halting.ends_pure.2 (.refl h)
  | cons c ds =>
    refine Halting.ends_bind.2 ((runPassToStore_ends h hreuse hnothing hv (h.chosen hsub hsorted)
      hroom).mono ?_ fun _ _ _ hf => hf)
    rintro _ _ v' ⟨rfl, hadv, hlt, -, hv'⟩
    exact ends_pure.2 ⟨hadv, hlt, hv'⟩

/-- The blocks of the file. -/
def extent (v : Store δ) : Nat := blocksCovering v.engine.size blockSize

/-- Before an operation: the numbers leave room for the commits that it may make, and the file for
the blocks that it may take meanwhile. -/
structure Spacious (v : Store δ) : Prop where
  nextId : v.records.nextId.toNat + 4 < UInt32.size
  version : v.records.version.toNat + 4 < UInt64.size
  image : Image.headSize + Image.entrySize * v.records.data.size < UInt32.size
  ample : Ample δ (v.extent + Chunk.maxBlocks)

theorem Spacious.roomy (h : Spacious v) : Roomy v 4 v.engine.occupancy.stop :=
  ⟨h.nextId, h.version, h.image, Nat.le_refl _⟩

namespace Consistent

theorem stop_le_extent {shield : Nat → Prop} (h : Consistent v m E live committed shield) :
    v.engine.occupancy.stop ≤ v.extent := by
  have hle := h.stop_le
  rw [extent, size_eq h.shows, blocksCovering]
  simp only [mul_blockSize] at hle
  simp only [blockSize]
  omega

/-- Wherever a chunk may go now, it ends before this block. -/
theorem ceiling_le (h : Consistent v m E live committed bare) (hn : v.engine.reserved = .nothing) :
    v.engine.occupancy.ceiling v.engine.heldBack ≤ v.extent := by
  have hstop := h.stop_le_extent
  have happend : v.engine.appendFrom = max v.extent v.engine.occupancy.stop := rfl
  rw [heldBack, hn]
  refine Nat.max_le.2 ⟨hstop, ?_⟩
  change (if v.engine.reuse then 0 else v.engine.appendFrom) ≤ v.extent
  split
  · exact Nat.zero_le _
  · rw [happend]
    exact Nat.max_le.2 ⟨Nat.le_refl _, hstop⟩

theorem canCommit (h : Consistent v m E live committed bare) (hn : v.engine.reserved = .nothing)
    (hs : Spacious v) : CanCommit v := by
  have hceil := h.ceiling_le hn
  have hroom := hs.ample.room
  refine hs.roomy.canCommit ?_
  simp only [mul_blockSize] at *
  omega

end Consistent

theorem compactToCommit_ends (h : Consistent v m E live committed bare)
    (hn : v.engine.reserved = .nothing) (hs : Spacious v) :
    (compactToCommit target passBytes).Ends v (fun answered _ => Packed v committed live answered)
      fun answered => CutOff (.latest answered committed live) live := by
  have hextent := h.stop_le_extent
  have hremoved := h.removedBlocks_le
  obtain ⟨hroom, hpercent⟩ := hs.ample
  have hsmall : v.engine.occupancy.headerBlocks + v.records.removedBlocks < UInt64.size := by
    have hheader := h.header_pos
    rw [h.layout.headerBlocks]
    simp only [mul_blockSize] at *
    omega
  obtain ⟨rate, hrate⟩ := Occupancy.fillRateWithout_eq_ok hsmall
  unfold compactToCommit
  rw [Halting.ends_get_bind, readOnly_eq h.shows]
  dsimp only
  rw [Bool.false_or]
  split
  · exact Halting.ends_pure.2 (.refl h)
  next hreuse =>
  have hreuse : v.engine.reuse = true := by simpa using hreuse
  rw [Halting.ends_checked_bind hrate]
  split
  · exact Halting.ends_pure.2 (.refl h)
  split
  · have hroomy : Roomy v (0 + 3) v.engine.occupancy.stop :=
      hs.roomy.mono (by omega) (Nat.le_refl _)
    refine pass_ends h hreuse hn hroomy ⟨?_, ?_⟩
    · simp only [mul_blockSize] at *
      omega
    · simp only [mul_blockSize] at *
      omega
  · have hceil := h.ceiling_le hn
    rw [Halting.ends_upTo_bind, ends_discard]
    refine (commit_ends h (h.canCommit hn hs) fun b hb => hb.elim).mono ?_ fun _ _ hf => hf
    rintro _ v₁ ⟨hc, hstop, m₁, E₁, h₁⟩
    have hroomy₁ : Roomy v₁ 3 v₁.engine.occupancy.stop := hc.roomy hs.roomy (Nat.le_refl _)
    refine (pass_ends h₁ ((congrArg Mode.reuse hc.mode).trans hreuse)
      ((congrArg Mode.reserved hc.mode).trans hn) hroomy₁ ⟨?_, ?_⟩).finish.mono ?_ ?_
    · simp only [mul_blockSize] at *
      omega
    · simp only [mul_blockSize] at *
      omega
    · exact fun _ v₂ h₂ => h₂.of_live (hc.advanced hs.roomy) (hc.version_lt hs.roomy)
    · exact fun _ _ hf => hf.of_live

/-- Each of up to `spare + 1` passes finds the room it may need. -/
def Spacious.Passes (target passBytes : Nat) : Nat → Store δ → Prop
  | 0, v => Spacious v
  | spare + 1, v => Spacious v ∧
    ∀ v', compact target passBytes v = (.ok true, v') → Passes target passBytes spare v'

theorem compactAllToCommit_ends (h : Consistent v m E live committed bare)
    (hn : v.engine.reserved = .nothing) (hs : Spacious.Passes target passBytes spare v) :
    (compactAllToCommit spare target passBytes).Ends v
      (fun answered _ => Packed v committed live answered)
      fun answered => CutOff (.latest answered committed live) live := by
  induction spare generalizing v m E committed with
  | zero => exact compactToCommit_ends h hn hs
  | succ spare ih =>
    obtain ⟨hspacious, hnext⟩ := hs
    unfold compactAllToCommit
    rw [Halting.ends_bind]
    refine (compactToCommit_ends h hn hspacious).of_run.mono ?_ fun _ _ _ hf => hf
    rintro answered again v₁ ⟨hrun, hpacked⟩
    rw [finish_compactToCommit] at hrun
    obtain ⟨m₁, E₁, h₁⟩ := hpacked.consistent
    have hn₁ := (congrArg Mode.reserved hpacked.advanced.mode).trans hn
    cases answered with
    | false =>
      cases again with
      | false => exact Halting.ends_pure.2 hpacked
      | true =>
        refine Halting.ends_bind.2 (Halting.ends_discard.2 ((ih h₁ hn₁ (hnext v₁ hrun)).mono ?_
          fun _ _ _ hf => hf))
        intro answered _ v₂ h₂
        cases answered with
        | false => exact Halting.ends_pure.2 (hpacked.then h₂)
        | true => exact ends_pure.2 (hpacked.then h₂)
    | true =>
      cases again with
      | false => exact ends_pure.2 hpacked
      | true =>
        simp only [if_true, Halting.finish_bind, Halting.finish_discard]
        rw [ends_bind, ends_discard]
        refine (ih h₁ hn₁ (hnext v₁ hrun)).finish.mono (fun _ v₂ h₂ => ?_) fun _ _ hf => hf.of_live
        exact ends_pure.2 (h₂.of_live hpacked.advanced hpacked.counts)

theorem maintainToCommit_ends (h : Consistent v m E live committed bare)
    (hn : v.engine.reserved = .nothing) (hs : Spacious.Passes v.engine.settings.compactBelow
      v.engine.settings.passBytes spare v) :
    (maintainToCommit spare).Ends v (fun answered _ => Packed v committed live answered)
      fun answered => CutOff (.latest answered committed live) live := by
  obtain ⟨rate, hrate⟩ := Occupancy.fillRateWithout_eq_ok (o := v.engine.occupancy) (n := 0) (by
    rw [h.layout.headerBlocks]
    decide)
  unfold maintainToCommit
  rw [Halting.ends_get_bind]
  dsimp only
  rw [readOnly_eq h.shows, if_neg Bool.false_ne_true, Occupancy.fillRate,
    Halting.ends_checked_bind hrate]
  split
  · exact Halting.ends_pure.2 (.refl h)
  · exact compactAllToCommit_ends h hn hs

/-- What a closing store does last. -/
theorem tidy_ends (h : Consistent v m E live committed bare)
    (hroom : v.engine.occupancy.stop * blockSize * 100 < UInt64.size) :
    Ends (Volume.onEngine do
      discard (shrink (← get).settings.shrinkFrom)
      Engine.sync) v (fun _ v' =>
        v'.records = v.records ∧ v'.engine.occupancy = v.engine.occupancy ∧
        v'.engine.mode = v.engine.mode ∧ ∃ m', m'.pending = [] ∧
        Consistent v' m' E live committed bare) (CutOff committed live) := by
  have htrim := trim_ends v.engine.settings.shrinkFrom h hroom
  rw [Volume.onEngine, ends_within] at htrim ⊢
  rw [ends_bind, ends_get]
  exact htrim

/-- A store that closes has nothing left to commit. -/
theorem closeToCommit_ends (h : Consistent v m E live committed bare)
    (hn : v.engine.reserved = .nothing) (hs : Spacious v) :
    closeToCommit.Ends v (fun answered _ v' => Advanced v v' ∧ Counts answered v v' ∧
      v'.records.dirty = false ∧ Contents.latest answered committed live = live ∧
      ∃ m' E', m'.pending = [] ∧ Consistent v' m' E' live live bare)
      fun answered => CutOff (.latest answered committed live) live := by
  have hextent := h.stop_le_extent
  obtain ⟨hroom, hpercent⟩ := hs.ample
  unfold closeToCommit
  rw [Halting.ends_get_bind, readOnly_eq h.shows, if_neg Bool.false_ne_true, Halting.ends_get_bind]
  split
  · rw [Halting.ends_upTo_bind, ends_discard, Halting.finish_through]
    refine (commit_ends h (h.canCommit hn hs) fun b hb => hb.elim).mono ?_ fun _ _ hf => hf
    rintro _ v₁ ⟨hc, hstop, m₁, E₁, h₁⟩
    have hceil := h.ceiling_le hn
    refine (tidy_ends h₁ ?_).mono ?_ fun _ _ hf => hf
    · simp only [mul_blockSize] at *
      omega
    · rintro _ v₂ ⟨hrec, -, hmode, m₂, hm₂, h₂⟩
      have hc₂ := hc.of_records hrec hmode
      exact ⟨hc₂.advanced hs.roomy, hc₂.version_lt hs.roomy, hc₂.dirty, rfl, m₂, E₁, hm₂, h₂⟩
  · next hdirty =>
    have hdirty : v.records.dirty = false := by simpa using hdirty
    obtain rfl := (h.clean hdirty).2.2
    refine Halting.ends_through.2 ((tidy_ends h ?_).mono ?_ fun _ _ hf => hf)
    · simp only [mul_blockSize] at *
      omega
    · rintro _ v₂ ⟨hrec, -, hmode, m₂, hm₂, h₂⟩
      exact ⟨(Alike.of_records hrec hmode).advanced, congrArg Catalog.version hrec, hrec ▸ hdirty, rfl,
        m₂, E, hm₂, h₂⟩

end Store

end BlockStore
