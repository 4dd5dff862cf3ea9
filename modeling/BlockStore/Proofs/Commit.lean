import BlockStore.Proofs.Operations

namespace BlockStore

open Bytes

namespace Chunk

/-- No payload takes more blocks. -/
def maxBlocks : Nat := blocksFor (UInt32.size - 1)

theorem blocksFor_le {n : Nat} (h : n < UInt32.size) : blocksFor n ≤ maxBlocks := by
  simp only [maxBlocks, blocksFor, blocksCovering]
  exact Nat.div_le_div_right (by omega)

end Chunk

namespace Engine

open BlockStore.Action Device

variable {δ : Type} [Device δ] [Lawful δ] {e : Engine δ} {m : Medium}

/-- Of chunks that are held some are given back, the others stay. -/
theorem freeAll_ends {gone kept : List Chunk} (h : e.Shows m)
    (hl : Layout e.occupancy (gone ++ kept))
    (hroom : e.occupancy.stop * blockSize < UInt64.size) :
    Ends (gone.forM freeChunk) e (fun _ e' => e'.Shows m ∧ e'.mode = e.mode ∧
      Layout e'.occupancy kept ∧ e'.occupancy.stop ≤ e.occupancy.stop) fun _ _ => False := by
  refine (ends_forM (I := fun rest (e' : Engine δ) => e'.Shows m ∧ e'.mode = e.mode ∧
    Layout e'.occupancy (rest ++ kept) ∧ e'.occupancy.stop ≤ e.occupancy.stop)
    ⟨h, rfl, hl, Nat.le_refl _⟩ ?_)
  rintro c rest e₁ ⟨h₁, hm₁, hl₁, hs₁⟩
  have hafter := hl₁.after_le_stop List.mem_cons_self
  refine (freeChunk_ends h₁ hl₁ ?_).mono ?_ fun _ _ => False.elim
  · simp only [mul_blockSize] at *
    omega
  · rintro _ e₂ ⟨h₂, hm₂, ho₂⟩
    refine ⟨h₂, hm₂.trans hm₁, ?_, ?_⟩
    · rw [ho₂]
      exact hl₁.drop
    · refine Nat.le_trans (Occupancy.stop_le fun b hb => ?_) hs₁
      rw [ho₂] at hb
      exact Occupancy.lt_stop (Bitmap.mem_eraseRange.1 hb).1

end Engine

/-- The edition that the next commit makes of the records, with its root. -/
def Catalog.nextEdition (c : Catalog) (root : Chunk) : Edition :=
  ⟨c.version + 1, some root, c.nextId + 1, c.data.chunks⟩

/-- The payload of that root. -/
def Catalog.nextBytes (c : Catalog) : ByteArray :=
  ofList (Image.toBytes ⟨c.version + 1, c.nextId + 1, c.data.chunks⟩)

/-- The record of that root before it has a place. -/
def Catalog.nextRoot (c : Catalog) : Chunk :=
  Chunk.holding { id := c.nextId, version := c.version + 1 } c.nextBytes

theorem Catalog.held_nextEdition (c : Catalog) (root : Chunk) :
    (c.nextEdition root).held.Perm (root :: c.data.chunks) := List.perm_append_singleton _ _

/-- The chunks of the next edition are held. -/
theorem Catalog.nextEdition_subperm (c : Catalog) (root : Chunk) :
    (c.nextEdition root).held.Subperm (root :: c.held) :=
  (c.held_nextEdition root).subperm.trans ((List.subperm_cons root).2 c.data_subperm)

theorem self_lt_succ_version {a : UInt64} (h : a.toNat + 1 < UInt64.size) : a < a + 1 := by
  rw [UInt64.lt_iff_toNat_lt, UInt64.toNat_add]
  simp only [UInt64.size] at h
  have : (1 : UInt64).toNat = 1 := rfl
  omega

namespace Store

open BlockStore.Action Engine Device

/-- What a commit does in the file once its root has a place. -/
def publishRoot {δ : Type} [Device δ] (version : UInt64) (root : Chunk) :
    Action (Engine δ) Chunk := do
  Engine.sync
  Engine.write 0 (Superblock.naming version root).toBytes
  Engine.sync
  return root

/-- What a commit of the records `old` does in memory once the file names its root. -/
def adoptRoot {δ : Type} [Device δ] (old : Catalog) (root : Chunk) :
    Action (Store δ) UInt64 := do
  modify ({ · with records := { old with
    nextId := old.nextId + 1
    root := some root
    removed := []
    version := old.version + 1
    dirty := false } })
  Volume.onEngine ((old.removed ++ old.root.toList).forM Engine.freeChunk)
  return old.version + 1

section

variable {δ : Type} [Device δ] {v : Store δ} {Q : UInt64 → Store δ → Prop}
  {R : Failure → Store δ → Prop}

/-- A commit takes an id, finds a place for its root, makes the file name it and adopts it. -/
theorem commit_of_root
    (hsealed : v.engine.readOnly = true → R (.error .readOnly) v)
    (hid : UInt32.size ≤ v.records.nextId.toNat + 1 → R (.fault .overflow) v)
    (hversion : v.records.nextId.toNat + 1 < UInt32.size →
      UInt64.size ≤ v.records.version.toNat + 1 → R (.fault .overflow) v.skipped)
    (hroot : v.engine.readOnly = false → v.records.nextId.toNat + 1 < UInt32.size →
      v.records.version.toNat + 1 < UInt64.size →
      Ends (place { id := v.records.nextId, version := v.records.version + 1 } v.records.nextBytes >>=
          publishRoot (v.records.version + 1)) v.engine
        (fun root e => Ends (adoptRoot v.records root) ⟨e, v.skipped.records⟩ Q R)
        fun f e => R f ⟨e, v.skipped.records⟩) :
    Ends commit v Q R := by
  unfold commit guardWritable
  rw [ends_bind, ends_bind, ends_get]
  cases hreadOnly : v.engine.readOnly with
  | true => exact ends_refuse.2 (hsealed hreadOnly)
  | false =>
    rw [if_neg Bool.false_ne_true, ends_pure]
    refine takeId_cases.bind ?_ ?_
    · rintro _ _ ⟨hlt, rfl, rfl⟩
      rw [ends_bind, ends_get]
      dsimp only
      rw [ends_bind]
      rcases nextVersion_cases v.skipped.records with ⟨hlt', heq⟩ | ⟨hle, heq⟩
      · rw [ends_checked heq, ends_bind, Volume.onEngine, ends_within]
        exact hroot hreadOnly hlt hlt'
      · rw [heq]
        exact ends_iff.2 (hversion hlt hle)
    · rintro _ _ ⟨hle, rfl, rfl⟩
      exact hid hle

/-- While there are ids and versions, it consists in the steps after the first. -/
theorem commit_of_place (hwrite : v.engine.readOnly = false)
    (hid : v.records.nextId.toNat + 1 < UInt32.size)
    (hversion : v.records.version.toNat + 1 < UInt64.size)
    (h : Ends (place { id := v.records.nextId, version := v.records.version + 1 }
        v.records.nextBytes) v.engine
      (fun root e₁ => Ends (publishRoot (v.records.version + 1) root) e₁
        (fun root e₂ => Ends (adoptRoot v.records root) ⟨e₂, v.skipped.records⟩ Q R)
        fun f e₂ => R f ⟨e₂, v.skipped.records⟩)
      fun f e₁ => R f ⟨e₁, v.skipped.records⟩) :
    Ends commit v Q R :=
  commit_of_root (fun hno => by rw [hwrite] at hno; cases hno) (fun hle => by omega)
    (fun _ hle => by omega) fun _ _ _ => ends_bind.2 h

end

variable {δ : Type} [Device δ] [Lawful δ] {v : Store δ} {m m' : Medium} {E : Edition}
  {live committed : Contents} {shield : Nat → Prop} {e' : Engine δ} {root : Chunk}

namespace Consistent

theorem nextEdition_sound (h : Consistent v m E live committed shield)
    (hg : Grown v E live committed shield root v.records.nextBytes m' e')
    (hnext : v.records.nextId.toNat + 1 < UInt32.size)
    (hroot : ∃ block next, root = { v.records.nextRoot with block, next }) :
    (v.records.nextEdition root).Sound := by
  obtain ⟨hapart, hheader, hlen⟩ := hg.layout.sub (v.records.nextEdition_subperm root)
  have hid : root.id = v.records.nextId := by
    obtain ⟨block, next, rfl⟩ := hroot
    rfl
  have hlt : ∀ d ∈ v.records.data.chunks, d.id < v.records.nextId :=
    fun d hd => h.ids_lt d (v.records.data_subperm.subset hd)
  have hperm := v.records.held_nextEdition root
  refine ⟨nofun, ?_, h.plain, v.records.data.ascending, ?_, fun d hd => ?_, hapart, hheader, hlen⟩
  · rintro _ ⟨⟩
    obtain ⟨block, next, rfl⟩ := hroot
    rfl
  · refine (hperm.map Chunk.id).nodup_iff.2 (List.nodup_cons.2 ⟨fun hmem => ?_, ?_⟩)
    · obtain ⟨d, hd, heq⟩ := List.mem_map.1 hmem
      have hd' := hlt d hd
      rw [heq, hid] at hd'
      exact UInt32.lt_irrefl _ hd'
    · exact v.records.data.nodup_ids
  · rcases List.mem_cons.1 (hperm.mem_iff.1 hd) with rfl | hd
    · rw [hid]
      exact self_lt_succ_id hnext
    · exact lt_succ_id (hlt d hd) hnext

theorem nextEdition_backed (hg : Grown v E live committed shield root v.records.nextBytes m' e') :
    (v.records.nextEdition root).Backed m'.content live :=
  ⟨fun _ hr => Option.some.inj hr ▸ hg.carries, hg.stocks⟩

end Consistent

/-- What an operation needs of the numbers for one commit in it. -/
structure CanCommit (v : Store δ) : Prop where
  nextId : v.records.nextId.toNat + 1 < UInt32.size
  version : v.records.version.toNat + 1 < UInt64.size
  image : Image.headSize + Image.entrySize * v.records.data.chunks.length < UInt32.size
  room : (v.engine.occupancy.ceiling v.engine.heldBack + Chunk.maxBlocks) * blockSize < Lawful.room δ

/-- What a commit has done to the store. -/
structure Committed (v v' : Store δ) : Prop where
  mode : v'.engine.mode = v.engine.mode
  data : v'.records.data = v.records.data
  removed : v'.records.removed = []
  nextId : v'.records.nextId = v.records.nextId + 1
  version : v'.records.version = v.records.version + 1
  dirty : v'.records.dirty = false
  root : ∃ root, v'.records.root = some root ∧ root.id = v.records.nextId ∧
    root.len.toNat ≤ Chunk.maxBlocks

namespace Consistent

/-- The records after the commit, once the blocks of the old edition have been given back. -/
theorem committed_of_freed {e₂ : Engine δ} (h : Consistent v m E live committed shield)
    (hg : Grown v E live committed shield root v.records.nextBytes m' e')
    (hs : (v.records.nextEdition root).Sound)
    (hshows : e₂.Shows ((v.records.nextEdition root).publishedOn m'))
    (hlayout : Layout e₂.occupancy (root :: v.records.data.chunks))
    (hstop : e₂.occupancy.stop ≤ e'.occupancy.stop) :
    Consistent ⟨e₂, { v.records with
        root := some root
        removed := []
        nextId := v.records.nextId + 1
        version := v.records.version + 1
        dirty := false }⟩ ((v.records.nextEdition root).publishedOn m')
      (v.records.nextEdition root) live live bare := by
  have hheld : Catalog.held { v.records with
      root := some root
      removed := []
      nextId := v.records.nextId + 1
      version := v.records.version + 1
      dirty := false } = (v.records.nextEdition root).held := List.append_nil _
  have hperm := v.records.held_nextEdition root
  have hcontent : ((v.records.nextEdition root).publishedOn m').content =
      Change.apply m'.content (.write 0 (v.records.nextEdition root).superblock.toBytes) := by
    rw [Edition.publishedOn, Medium.content_sync, Medium.content_change, Medium.content_sync]
  have hlayout' := hlayout.perm hperm.symm
  refine ⟨hshows, hheld ▸ hlayout', hheld ▸ hs.ids_nodup, fun d hd => hs.ids_lt d (hheld ▸ hd),
    h.plain, ?_, ?_, ?_, fun d hd => ⟨d, hheld ▸ hd, rfl, rfl, .inl rfl⟩, rfl, rfl,
    fun _ => ⟨rfl, rfl, rfl⟩⟩
  · have hle := hg.stop_le
    rw [hcontent, Change.size_apply_write]
    simp only [mul_blockSize] at *
    omega
  · rw [hcontent]
    exact hg.stocks.change fun d hd => hs.spares (Edition.mem_held.2 (.inl hd)) _
  · exact Edition.Settled.publish rfl hs (nextEdition_backed hg)

end Consistent

/-- With its root in place a commit becomes durable, and what only the commit before it referred to
is given back. -/
theorem publishRoot_ends (h : Consistent v m E live committed shield)
    (hid : v.records.nextId.toNat + 1 < UInt32.size)
    (hversion : v.records.version.toNat + 1 < UInt64.size)
    (hg : Consistent.Grown v E live committed shield root v.records.nextBytes m' e')
    (hroot : ∃ block next, root = { v.records.nextRoot with block, next })
    (hlen : root.len.toNat ≤ Chunk.maxBlocks) :
    Ends (publishRoot (v.records.version + 1) root) e'
      (fun last e₂ => Ends (adoptRoot v.records last)
        ⟨e₂, { v.records with nextId := v.records.nextId + 1 }⟩
        (fun _ v' => Committed v v' ∧ v'.records.root = some root ∧
          v'.engine.occupancy.stop ≤ e'.occupancy.stop ∧
          Consistent v' ((v.records.nextEdition root).publishedOn m') (v.records.nextEdition root)
            live live bare) fun _ _ => False)
      fun f e₂ => CutOff committed live f
        ⟨e₂, { v.records with nextId := v.records.nextId + 1 }⟩ := by
  have hs := h.nextEdition_sound hg hid hroot
  have hrootId : root.id = v.records.nextId := by
    obtain ⟨block, next, rfl⟩ := hroot
    rfl
  refine (publish_ends root (do sync; return root) hg.shows hg.settled hs
    (Consistent.nextEdition_backed hg) h.headerBytes_lt ?_).mono ?_ ?_
  · exact fun e₂ m₂ h₂ => (sync_ends h₂).bind (fun _ e₃ k₃ => ends_pure.2 ⟨rfl, k₃⟩) fun _ _ => id
  · rintro _ e₂ ⟨rfl, k₂⟩
    have hlayout : Layout e₂.occupancy ((v.records.removed ++ v.records.root.toList) ++
        (root :: v.records.data.chunks)) := by
      rw [k₂.2.1]
      refine hg.layout.perm (List.perm_iff_count.2 fun c => ?_)
      simp only [Catalog.held, List.count_append, List.count_cons]
      omega
    have hstop : e₂.occupancy.stop * blockSize < UInt64.size := by
      have h1 := hg.stop_le
      have h2 := Lawful.size_lt hg.shows
      have h3 := room_lt (δ := δ)
      rw [k₂.2.1]
      omega
    unfold adoptRoot
    rw [ends_bind, ends_modify, ends_bind, Volume.onEngine, ends_within]
    refine (freeAll_ends k₂.1 hlayout hstop).mono ?_ fun _ _ => False.elim
    rintro _ e₃ ⟨h₃, hmode, hl₃, hstop₃⟩
    rw [k₂.2.1] at hstop₃
    exact ends_pure.2 ⟨⟨hmode.trans (k₂.2.2.trans hg.mode), rfl, rfl, rfl, rfl, rfl, root, rfl,
      hrootId, hlen⟩, rfl, hstop₃, h.committed_of_freed hg hs h₃ hl₃ hstop₃⟩
  · rintro f e₂ ⟨hf, m₂, h₂, hcrash⟩
    refine ⟨hf, _, h₂, fun b hb => (hcrash b hb).imp (fun hE => ⟨E, hE⟩) ?_⟩
    rintro ⟨hmem, hE'⟩
    exact ⟨⟨_, hmem, self_lt_succ_version hversion⟩, _, hE'⟩

/-- The root of a commit is no longer than any chunk. -/
theorem nextRoot_len_le {c : Catalog} (hbytes : c.nextBytes.size < UInt32.size)
    (hroot : ∃ block next, root = { c.nextRoot with block, next }) :
    root.len.toNat ≤ Chunk.maxBlocks := by
  obtain ⟨block, next, rfl⟩ := hroot
  exact Nat.le_trans (Nat.le_of_eq (Chunk.len_holding { id := c.nextId } hbytes))
    (Chunk.blocksFor_le hbytes)

theorem commit_ends (h : Consistent v m E live committed shield) (hc : CanCommit v)
    (hclosed : ∀ b, shield b → v.engine.heldBack.Closed b) :
    Ends commit v (fun _ v' => Committed v v' ∧
      v'.engine.occupancy.stop ≤
        v.engine.occupancy.ceiling v.engine.heldBack + Chunk.maxBlocks ∧
      ∃ m' E', Consistent v' m' E' live live bare)
      (CutOff committed live) := by
  have hbytes : v.records.nextBytes.size < UInt32.size := by
    rw [Catalog.nextBytes, size_ofList, Image.length_toBytes]
    exact hc.image
  have hblocks := Chunk.blocksFor_le hbytes
  have hroom : (v.engine.occupancy.ceiling v.engine.heldBack +
      Chunk.blocksFor v.records.nextBytes.size) * blockSize < Lawful.room δ :=
    Nat.lt_of_le_of_lt (Nat.mul_le_mul_right _ (Nat.add_le_add_left hblocks _)) hc.room
  refine commit_of_place (Engine.readOnly_eq h.shows) hc.nextId hc.version ?_
  refine (place_ends h.shows h.layout.blockSize hbytes hroom).mono ?_ ?_
  · rintro root e₁ ⟨hroot, hfresh, hputs⟩
    have hg := h.grow hfresh (fun b hb hcb => hfresh.outside.not_closed (hclosed b hb) hcb) hputs
    have hlen := nextRoot_len_le hbytes hroot
    refine (publishRoot_ends h hc.nextId hc.version hg hroot hlen).mono (fun _ e₂ h₂ => ?_)
      fun _ _ hf => hf
    refine h₂.mono (fun _ v' hv' => ⟨hv'.1, ?_, _, _, hv'.2.2.2⟩) fun _ _ => False.elim
    refine Nat.le_trans hv'.2.2.1 (Nat.le_trans hg.stop_le_max (Nat.max_le.2 ⟨?_, ?_⟩))
    · exact Nat.le_trans (Nat.le_max_left _ _) (Nat.le_add_right _ _)
    · exact Nat.add_le_add hfresh.le_ceiling hlen
  · rintro f e₁ ⟨hf, h₁⟩
    exact ⟨hf, _, h₁, (h.settled.safe _ _)⟩

end Store

end BlockStore
