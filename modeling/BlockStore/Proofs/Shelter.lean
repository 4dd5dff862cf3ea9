import BlockStore.Proofs.Maintenance
import BlockStore.Proofs.Preservation

namespace BlockStore

open BlockStore.Action Bytes Device Engine Keeper

namespace Device.Traced

variable {δ ν α : Type}

/-- A call of another kind leaves what is planned for this one. -/
theorem step_plan (kind : Kind) (call : Call) (hkind : kind ≠ call.kind)
    (act : Action δ α) : Fixes (fun t : Traced δ ν => t.plan kind) (step call act) := by
  have hcount (t : Traced δ ν) (count : Option Nat) :
      (t.failAfter call.kind count).plan kind = t.plan kind := if_neg hkind
  have hpass : Fixes (fun t : Traced δ ν => t.plan kind)
      (.within inner (fun t d => { t with inner := d }) act) := fixes_within fun _ => rfl
  unfold step
  refine .bind (fixes_modify fun _ => rfl) fun _ => ?_
  refine .bind fixes_get fun t => ?_
  dsimp only
  split
  · exact .bind (fixes_modify fun t => hcount t _) fun _ => .bind (fixes_refuse _) fun _ => hpass
  · exact .bind (fixes_modify fun t => hcount t _) fun _ => hpass
  · exact hpass

end Device.Traced

namespace Engine

variable {δ ν : Type} [Device δ] {e : Engine (Traced δ ν)}

/-- What is planned for the syncs. -/
def syncPlan (e : Engine (Traced δ ν)) : Option Nat := e.device.plan .sync

theorem detached_syncPlan : Detached (syncPlan (δ := δ) (ν := ν)) where
  read_device pos len :=
    fixes_within fun e => Traced.step_plan .sync (.read pos len) nofun _ e.device
  write_device pos data :=
    fixes_within fun e => Traced.step_plan .sync (.write pos data.size) nofun _ e.device
  occupancy _ _ _ := rfl
  pool _ _ := rfl
  traffic _ _ := rfl

theorem sync_refused (h : syncPlan e = some 0) :
    Ends sync e (fun _ _ => False) Any := by
  unfold sync onDevice
  rw [ends_within]
  change Ends (Traced.step .sync Device.sync) e.device _ _
  unfold Traced.step
  rw [ends_bind, ends_modify, ends_bind, ends_get]
  dsimp only [Call.kind]
  rw [show e.device.plan .sync = some 0 from h, ends_bind, ends_modify]
  exact ends_bind.2 (ends_refuse.2 trivial)

theorem sync_counted {n : Nat} (h : syncPlan e = some (n + 1)) :
    Ends sync e (fun _ e' => syncPlan e' = some n) Any := by
  unfold sync onDevice
  rw [ends_within]
  change Ends (Traced.step .sync Device.sync) e.device _ _
  unfold Traced.step
  rw [ends_bind, ends_modify, ends_bind, ends_get]
  dsimp only [Call.kind]
  rw [show e.device.plan .sync = some (n + 1) from h, ends_bind, ends_modify, ends_within]
  exact ends_any fun _ _ => rfl

end Engine

namespace Store

section

variable {δ δ' : Type} [Device δ] [Lawful δ] [Device δ'] [Fallible δ'] {v : Store δ} {m : Medium}
  {E : Edition} {live committed : Contents} {n top : Nat} {e : Engine δ'}

/-- What a store has on its blocks. -/
def inventory (v : Store δ) : Inventory :=
  ⟨v.records.data.chunks, v.records.root, v.records.removed, fun id => id < v.records.nextId⟩

/-- The ids of its data chunks. -/
def Knows (v : Store δ) (id : UInt32) : Prop := ∃ c ∈ v.records.data.chunks, c.id = id

namespace Consistent

theorem sealed (h : Consistent v m E live committed bare) (hc : c ∈ v.records.chunks) :
    ∃ p, Seals m.content c p := (h.exists_carries hc).imp fun _ => .of_carries

theorem site (h : Consistent v m E live committed bare) (he : e.Has m.content)
    (ho : e.occupancy = v.engine.occupancy) : Site.Sound ⟨e, m.content, v.inventory⟩ := by
  have hsub : v.records.chunks.Sublist v.records.held := List.sublist_append_left _ _
  exact ⟨he, ho ▸ h.layout.lodged, fun c hc => h.sealed hc, h.ids_nodup.sublist (hsub.map _),
    fun c hc => h.ids_lt c (hsub.subset hc)⟩

theorem lists (h : Consistent v m E live committed bare) (hv : Roomy v n top) :
    Catalog.Lists v.Knows n v.records v.inventory :=
  ⟨fun _ => .rfl, .refl _, rfl, List.Subperm.refl _, Catalog.nodup_ids_chunks h.ids_nodup, fun _ hid => hid,
    hv.nextId, hv.version, hv.image, h.plain⟩

theorem stands (h : Consistent v m E live committed bare) : E.Stands m.content := by
  have hs := h.settled.sound
  have hb := h.settled.read_content.backed
  refine ⟨hs.blank, hs.plain, hs.ascending, ?_, h.settled.names.foldl h.settled.calm_header,
    fun root hr => .of_carries (hb.root root hr)⟩
  cases hr : E.root with
  | none =>
    rw [hs.blank hr]
    decide
  | some root => exact (hb.root root hr).fits.2

theorem stored (h : Consistent v m E live committed bare) :
    Catalog.Stored v.records m.content v.inventory := by
  refine ⟨E, h.stands, h.root.symm, h.version.symm, fun d hd => ?_⟩
  obtain ⟨c, hc, hid, hlen, hplace⟩ := h.trails d hd
  have hpos := h.settled.sound.len_pos d hd
  have hfirst : c.first = d.first := hplace.resolve_right fun hsh =>
    hsh d.first ⟨Nat.le_refl _, by rw [Chunk.after_eq]; omega⟩
  exact (List.mem_append.1 hc).imp (fun hc => ⟨c, hc, hid, hlen⟩) fun hc => ⟨c, hc, hfirst, hlen⟩

end Consistent

end

section

variable {δ : Type} [Device δ] [Fallible δ] {v w : Store δ} {b : ByteArray} {D : Inventory}
  {ids : UInt32 → Prop} {target passBytes : Nat}

theorem removedBlocks_le_stop {n : Nat} (h : Catalog.Lists ids n v.records D)
    (hs : Site.Sound ⟨v.engine, b, D⟩) : v.records.removedBlocks ≤ v.engine.occupancy.stop := by
  rw [Catalog.removedBlocks_eq]
  exact hs.lodged.sum_len_le (h.removed.trans (List.sublist_append_right _ _).subperm)

/-- A compaction, with the commit that may come before it. -/
theorem compact_endures (h : Catalog.Lists ids 4 v.records D) (hstored : Catalog.Stored v.records b D)
    (hs : Site.Sound ⟨v.engine, b, D⟩) (hn : v.engine.reserved = .nothing)
    (hroom : Volume.Leeway δ (v.engine.appendFrom + Chunk.maxBlocks) Chunk.maxBlocks) :
    Ends (compact target passBytes) v (fun _ w => ∃ n b' D',
      Volume.Seen (Catalog.conduct δ ids) ⟨v.engine, b, D⟩ n w b' D')
      (Volume.Torn (Catalog.conduct δ ids) ⟨v.engine, b, D⟩) := by
  have hA := Catalog.tolerant δ ids
  have hfirst : Volume.Seen (Catalog.conduct δ ids) ⟨v.engine, b, D⟩ 4 v b D :=
    ⟨⟨h, hstored⟩, hs, .refl _⟩
  have hstop : v.engine.occupancy.stop ≤ v.engine.appendFrom := Nat.le_max_right _ _
  have hremoved := removedBlocks_le_stop h hs
  have hpercent := hroom.percent
  have hheader := hs.lodged.header_le_stop
  have hsmall : v.engine.occupancy.headerBlocks + v.records.removedBlocks < UInt64.size := by
    rw [hs.lodged.headerBlocks]
    simp only [mul_blockSize] at *
    omega
  obtain ⟨rate, hrate⟩ := Occupancy.fillRateWithout_eq_ok hsmall
  -- After a first commit the pass starts from a site that descends from this one.
  have hpass {n : Nat} {u : Store δ} {b₁ : ByteArray} {D₁ : Inventory}
      (hu : Volume.Seen (Catalog.conduct δ ids) ⟨v.engine, b, D⟩ (n + 3) u b₁ D₁)
      (happend : u.engine.appendFrom ≤ v.engine.appendFrom + Chunk.maxBlocks) :
      Ends (Volume.compact passBytes) u (fun _ w => ∃ n b' D',
        Volume.Seen (Catalog.conduct δ ids) ⟨v.engine, b, D⟩ n w b' D')
        (Volume.Torn (Catalog.conduct δ ids) ⟨v.engine, b, D⟩) := by
    refine (Volume.compact_endures hA (hA.mono hu.view (Nat.le_add_left 3 n)) hu.sound
      (hroom.mono happend)).mono ?_ ?_
    · rintro _ w ⟨n, b', D', hw⟩
      exact ⟨n, b', D', hw.view, hw.sound, hu.descends.trans hw.descends⟩
    · intro f w hw
      refine hw.torn.imp (fun hl => ⟨hl.1, ?_⟩) fun hl => hl.1.elim
      obtain ⟨b', D', hl⟩ := hl.2
      exact ⟨b', D', hl.remains, hl.sound, hu.descends.trans hl.descends⟩
  unfold compact
  rw [ends_bind, ends_get]
  dsimp only
  split
  · exact ends_pure.2 ⟨4, b, D, hfirst⟩
  rw [ends_bind, ends_checked hrate]
  split
  · exact ends_pure.2 ⟨4, b, D, hfirst⟩
  split
  · exact hpass hfirst (Nat.le_add_right _ _)
  · have hreach : max v.engine.appendFrom (v.engine.reserved.high.getD 0) = v.engine.appendFrom := by
      rw [hn]
      exact Nat.max_eq_left (Nat.zero_le _)
    rw [ends_bind, ends_discard]
    refine (commit_endures h hstored hs ?_).mono ?_ ?_
    · have hroom := hroom.room
      rw [hreach]
      simp only [mul_blockSize] at *
      omega
    · rintro _ u ⟨b₁, D₁, hview, hsteps, happend⟩
      rw [hreach] at happend
      exact hpass (n := 0) (hfirst.steps hview hsteps) happend
    · rintro f u ⟨hf, b₁, D₁, hremains, hsteps⟩
      exact .inl ⟨hf, b₁, D₁, hfirst.fall hremains hsteps⟩

/-- Whatever opening a file with these bytes refers to is in use, but for chunks that the store keeps
in another place now. -/
def Shelters (w : Store δ) (b : ByteArray) : Prop :=
  ∀ (settings : Settings) (u : Store Memory), openOn settings { bytes := b } = .ok u →
    ∀ c ∈ u.records.chunks, w.engine.occupancy.Filled c.first c.len.toNat ∨
      ∃ d ∈ w.chunks, d.id = c.id ∧ d.len = c.len ∧ d.first ≠ c.first

theorem Shelters.of_left {s₀ : Site δ} (h : Volume.Left (Catalog.conduct δ ids) s₀ w b D) :
    w.Shelters b := by
  obtain ⟨⟨hlists, E, hE, htrails⟩, hsound, -⟩ := h
  intro settings u hopen c hc
  have hroom := Fallible.room_le (δ := δ)
  have hsize := Fallible.size_lt hsound.has
  have hhas : Fallible.Has ({ bytes := b } : Memory) b :=
    ⟨⟨b, []⟩, ⟨rfl, rfl, Nat.lt_of_lt_of_le hsize hroom⟩, rfl⟩
  obtain ⟨d, hd, hid, hblock, hlen⟩ := hE.of_openOn hhas hopen c hc
  have hfirst : d.first = c.first := congrArg UInt64.toNat hblock
  rcases htrails d hd with ⟨a, ha, haid, halen⟩ | ⟨a, ha, hafirst, halen⟩
  · by_cases hplace : a.first = c.first
    · have hfilled := hsound.lodged.filled a (Inventory.mem_held_of_chunks ha)
      rw [hplace, halen, hlen] at hfilled
      exact .inl hfilled
    · exact .inr ⟨a, hlists.chunks_perm.mem_iff.2 ha, haid.trans hid, halen.trans hlen, hplace⟩
  · have hfilled := hsound.lodged.filled a (List.mem_append_right _ ha)
    rw [hafirst, hfirst, halen, hlen] at hfilled
    exact .inl hfilled

end

/-- A device that looks the same has the store append where it did. -/
theorem Consistent.appendFrom_on_le {δ ν : Type} [Device δ] [Lawful δ] {v : Store δ} {m : Medium}
    {E : Edition} {live committed : Contents} {t : Traced δ ν}
    (h : Consistent v m E live committed bare) (ht : t.inner = v.engine.device) :
    (v.on t).engine.appendFrom ≤ v.extent := by
  change max (blocksCovering (Device.size t.inner) blockSize) v.engine.occupancy.stop ≤ _
  rw [ht]
  exact Nat.max_le.2 ⟨Nat.le_refl _, h.stop_le_extent⟩

section

variable {δ ν : Type} [Device δ] {c : Chunk} {v : Store (Traced δ ν)}

/-- Where the next sync is refused, nothing is committed. -/
theorem commit_refused (h : syncPlan v.engine = some 0) :
    Ends commit v (fun _ _ => False) Any := by
  refine commit_of_root (fun _ => trivial) (fun _ => trivial) (fun _ _ => trivial) fun _ _ _ => ?_
  refine ((fixes_iff.1 (detached_syncPlan.place _ _) v.engine).mono (fun _ _ he => he.trans h)
    fun _ _ _ => trivial).bind (fun root e he => ?_) fun _ _ hf => hf
  exact (sync_refused he).bind (fun _ _ => False.elim) fun _ _ hf => hf

theorem storeReserving_refused (r : Reserved) (h : syncPlan v.engine = some 0) :
    Ends (Volume.storeReserving r) v (fun _ _ => False) Any := by
  unfold Volume.storeReserving
  rw [ends_bind, ends_modify]
  have hstore : Ends (Volume.store : Action (Store (Traced δ ν)) Unit)
      { v with engine := { v.engine with reserved := r } } (fun _ _ => False) Any :=
    ends_discard.2 (commit_refused h)
  refine hstore.attempted (fun _ _ => False.elim) fun e w => ?_
  exact ends_bind.2 (ends_modify.2 (ends_refuse.2 trivial))

theorem register_syncPlan (h : syncPlan v.engine = some 0) :
    Ends (register c) v (fun _ w => syncPlan w.engine = some 0) Any := by
  unfold register
  rw [ends_bind, ends_get]
  dsimp only
  split
  · rw [ends_bind, ends_modify, Volume.onEngine, ends_within]
    exact (sync_refused h).bind (fun _ _ => False.elim) fun _ _ hf => hf
  split
  · exact ends_modify.2 h
  · exact ends_pure.2 h

theorem move_syncPlan (id : UInt32) (r : Reserved) (h : syncPlan v.engine = some 0) :
    Ends (Volume.move id r) v (fun _ w => syncPlan w.engine = some 0) Any := by
  unfold Volume.move
  rw [ends_bind, ends_get]
  cases v.chunk? id with
  | none => exact ends_pure.2 h
  | some c =>
    have hcopy : Action.Fixes syncPlan (do
        let moved ← Engine.copy c r
        Engine.freeChunk c
        return moved : Action (Engine (Traced δ ν)) Chunk) :=
      .bind (detached_syncPlan.copy c r) fun moved =>
        .bind (detached_syncPlan.freeChunk c) fun _ => fixes_pure _
    rw [ends_bind, Volume.onEngine, ends_within]
    refine (fixes_iff.1 hcopy v.engine).mono (fun moved e he => ?_) fun _ _ _ => trivial
    refine (register_syncPlan (he.trans h)).bind (fun _ w hw => ends_pure.2 hw) fun _ _ hf => hf

/-- If a pass has something to move, it ends where its second sync is refused. -/
theorem compact_refused {passBytes : Nat} {moves : List Chunk}
    (hmoves : Chooses v passBytes (c :: moves)) (h : syncPlan v.engine = some 1) :
    Ends (Volume.compact passBytes) v (fun _ _ => False) Any := by
  obtain ⟨pos, hpos, hchoose⟩ := hmoves
  unfold Volume.compact
  rw [ends_bind, ends_get, ends_bind, ends_checked hpos, ends_bind, ends_checked hchoose]
  dsimp only
  rw [ends_bind, Volume.runPass_eq, ends_bind, Volume.onEngine, ends_within]
  refine (sync_counted h).mono (fun _ e he => ?_) fun _ _ hf => hf
  rw [ends_bind, ends_get]
  dsimp only
  have hevacuate : Ends (Volume.evacuate c.block.toNat e.occupancy.stop (c :: moves))
      { v with engine := e } (fun _ w => syncPlan w.engine = some 0) Any :=
    ends_mapM (I := fun _ _ (w : Store (Traced δ ν)) => syncPlan w.engine = some 0) he
      fun d _ _ w hw =>
        (move_syncPlan d.id _ hw).bind (fun _ _ hw' => ends_pure.2 hw') fun _ _ hf => hf
  refine hevacuate.bind (fun evacuated w hw => ?_) fun _ _ hf => hf
  exact (storeReserving_refused _ hw).bind (fun _ _ => False.elim) fun _ _ hf => hf

end

end Store

namespace Session

open Store

variable {δ ν : Type} [Device δ] [Lawful δ] {allowed : Request → Prop} {s : Session δ}
  {t : Traced δ ν}

/-- If the device refuses a call of a compaction, the records of the store are in order, and so are
all blocks that the file refers to, unless the chunk on them has been moved. -/
theorem compact_failure_shelters (h : Reachable allowed s) (hs : Spacious s.store)
    (ht : t.inner = s.store.engine.device) (target passBytes : Nat) :
    Ends (Store.compact target passBytes) (s.store.on t) (fun _ _ => True) fun f w =>
      Traced.Refuses δ f ∧ ∃ b b', Fallible.Has t b ∧
        Volume.Preserved (fun _ => False) (s.store.on t) b w b' w.chunks ∧ w.Shelters b' := by
  obtain ⟨hn, m, E, hcons⟩ := h.known
  have hhas : Fallible.Has t m.content := ⟨m, ht ▸ hcons.shows, rfl⟩
  have hsound : Site.Sound ⟨(s.store.on t).engine, m.content, s.store.inventory⟩ :=
    hcons.site hhas rfl
  have hlists := hcons.lists hs.roomy
  have hleeway : Volume.Leeway (Traced δ ν) ((s.store.on t).engine.appendFrom + Chunk.maxBlocks)
      Chunk.maxBlocks := by
    have happend := hcons.appendFrom_on_le ht
    have hample : Volume.Leeway (Traced δ ν) (s.store.extent + Chunk.maxBlocks) Chunk.maxBlocks :=
      ⟨hs.ample.room, hs.ample.percent⟩
    exact hample.mono (Nat.add_le_add_right happend _)
  have hA := Catalog.tolerant (Traced δ ν) s.store.Knows
  refine (Store.compact_endures (v := s.store.on t) hlists hcons.stored hsound hn hleeway).mono
    (fun _ _ _ => trivial) fun f w hw => ?_
  rcases hw with ⟨hf, b', D', hl⟩ | ⟨hf, -⟩
  · refine ⟨hf, m.content, b', hhas, ?_, .of_left hl⟩
    exact .of_sound hA ⟨hlists, hcons.stored⟩ hsound hl.sound hl.descends (hA.chunks hl.remains)
  · exact hf.elim

/-- So it is of a store with a committed chunk behind a gap. The pass moves that chunk, and then the
device refuses the sync of its commit. -/
theorem compact_failure_shelters_holed : ∃ (s : Session Memory) (t : Traced Memory Unit)
    (f : Failure) (w : Store (Traced Memory Unit)), Reachable (fun _ => True) s ∧
    t.inner = s.store.engine.device ∧ t.plan .sync = some 1 ∧
    (s.ledger.committed 2).isSome ∧ (∃ c moves, s.store.Chooses blockSize (c :: moves)) ∧
    Store.compact 100 blockSize (s.store.on t) = (.error f, w) ∧
      Traced.Refuses Memory f ∧ ∃ b b', Fallible.Has t b ∧
        Volume.Preserved (fun _ => False) (s.store.on t) b w b' w.chunks ∧ w.Shelters b' := by
  have hforecast : ∃ f ∈ Forecast.run Bytes.limit [.zeros 10, .zeros 10, .remove 1, .commit]
      ⟨.blank {}, {}⟩, f.sketch.Spacious Bytes.limit ∧ (f.ledger.committed 2).isSome ∧
        f.sketch.records.removed = [] ∧ f.sketch.outline.reuse = true ∧
        f.sketch.outline.occupancy.fillRate = .ok 67 ∧ f.sketch.Moves headerBytes blockSize := by
    decide +kernel
  obtain ⟨s, horderly, -, hspacious, hcommitted, hremoved, hreuse, hrate, hmoves⟩ :=
    exists_in_memory ⟨rfl, by decide⟩ hforecast
  have hs : Reachable (fun _ => True) s := horderly.mono fun _ _ => trivial
  obtain ⟨-, m, E, hcons⟩ := hs.known
  let t : Traced Memory Unit :=
    ⟨s.store.engine.device, #[], fun kind => if kind = .sync then some 1 else none⟩
  have hwrite : s.store.engine.readOnly = false := Engine.readOnly_eq hcons.shows
  obtain ⟨c, moves, hchooses⟩ := exists_chooses hmoves
  have hon : (s.store.on t).Chooses blockSize (c :: moves) := hchooses
  have hstops : Ends (Store.compact 100 blockSize) (s.store.on t) (fun _ _ => False) Any := by
    have hcompacts := @compact_compacts _ _ (s.store.on t) hremoved hreuse hwrite 100 blockSize
    refine hcompacts.mono ?_ fun _ _ hf => hf
    rintro moved w (hidle | ⟨-, hpass, -⟩)
    · exact hidle ⟨⟨67, hrate, by decide⟩, c, moves, hon⟩
    · exact (compact_refused hon rfl).ok _ _ hpass
  rcases hrun : Store.compact 100 blockSize (s.store.on t) with ⟨f | moved, w⟩
  · have hspacious' := spacious_of_sketch (Nat.le_refl _) hspacious
    exact ⟨s, t, f, w, hs, rfl, rfl, hcommitted, ⟨c, moves, hchooses⟩, hrun,
      (compact_failure_shelters hs hspacious' rfl 100 blockSize).error f w hrun⟩
  · exact (hstops.ok moved w hrun).elim

end Session

end BlockStore
