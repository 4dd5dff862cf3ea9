import BlockStore.Proofs.Edition

namespace BlockStore

open Bytes

/-- Of the blocks that are in use in `o`, at most those in `P` are free in `o'`. -/
structure Occupancy.Releases (o : Occupancy) (P : Nat → Prop) (o' : Occupancy) : Prop where
  headerBlocks : o'.headerBlocks = o.headerBlocks
  blockSize : o'.blockSize = o.blockSize
  used : ∀ b ∈ o.used, ¬P b → b ∈ o'.used

namespace Occupancy.Releases

variable {o o' o'' : Occupancy} {P : Nat → Prop} {start n : Nat} {wasteful : List Bool}

theorem refl (o : Occupancy) (P : Nat → Prop) : o.Releases P o := ⟨rfl, rfl, fun _ hb _ => hb⟩

theorem trans (h : o.Releases P o') (h' : o'.Releases P o'') : o.Releases P o'' :=
  ⟨h'.headerBlocks.trans h.headerBlocks, h'.blockSize.trans h.blockSize,
    fun b hb hp => h'.used b (h.used b hb hp) hp⟩

theorem insert : o.Releases P { o with used := o.used.insertRange start (start + n), wasteful } :=
  ⟨rfl, rfl, fun _ hb _ => Bitmap.mem_insertRange.2 (.inl hb)⟩

theorem erase : o.Releases (fun b => start ≤ b ∧ b < start + n)
    { o with used := o.used.eraseRange start (start + n) } :=
  ⟨rfl, rfl, fun _ hb hp => Bitmap.mem_eraseRange.2 ⟨hb, hp⟩⟩

/-- Blocks that were free before they were taken are no loss. -/
theorem of_vacant (h : o.Releases (fun b => start ≤ b ∧ b < start + n) o')
    (hv : o.Vacant start n) : o.Releases (fun _ => False) o' :=
  ⟨h.headerBlocks, h.blockSize, fun b hb _ => h.used b hb fun hp => hv b hp.1 hp.2 hb⟩

end Occupancy.Releases

/-- The blocks of the header and of the chunks are in use, and no two chunks share a block. Other
blocks may be in use as well. -/
structure Lodged (o : Occupancy) (cs : List Chunk) : Prop where
  headerBlocks : o.headerBlocks = headerBlocks
  blockSize : o.blockSize = blockSize
  header : ∀ b, b < BlockStore.headerBlocks → b ∈ o.used
  filled : ∀ c ∈ cs, o.Filled c.first c.len.toNat
  apart : cs.Pairwise Chunk.Apart
  header_le : ∀ c ∈ cs, BlockStore.headerBlocks ≤ c.first
  len_pos : ∀ c ∈ cs, 0 < c.len.toNat

theorem Layout.lodged {o : Occupancy} {cs : List Chunk} (h : Layout o cs) : Lodged o cs :=
  ⟨h.headerBlocks, h.blockSize, fun b hb => (h.mem_used b).2 (.inl hb), fun _ hc => h.filled hc,
    h.apart, h.header_le, h.len_pos⟩

namespace Lodged

variable {o o' : Occupancy} {cs ds : List Chunk} {c : Chunk} {P : Nat → Prop} {start n : Nat}

theorem perm (h : Lodged o cs) (hp : cs.Perm ds) : Lodged o ds :=
  ⟨h.headerBlocks, h.blockSize, h.header, fun c hc => h.filled c (hp.mem_iff.2 hc),
    (hp.pairwise_iff Chunk.Apart.symm).1 h.apart, fun c hc => h.header_le c (hp.mem_iff.2 hc),
    fun c hc => h.len_pos c (hp.mem_iff.2 hc)⟩

theorem of_cons (h : Lodged o (c :: cs)) : Lodged o cs :=
  ⟨h.headerBlocks, h.blockSize, h.header, fun d hd => h.filled d (List.mem_cons_of_mem _ hd),
    h.apart.of_cons, fun d hd => h.header_le d (List.mem_cons_of_mem _ hd),
    fun d hd => h.len_pos d (List.mem_cons_of_mem _ hd)⟩

theorem releases (h : Lodged o cs) (hr : o.Releases P o')
    (hheader : ∀ b, b < BlockStore.headerBlocks → ¬P b)
    (hP : ∀ c ∈ cs, ∀ b, c.Covers b → ¬P b) : Lodged o' cs :=
  ⟨hr.headerBlocks.trans h.headerBlocks, hr.blockSize.trans h.blockSize,
    fun b hb => hr.used b (h.header b hb) (hheader b hb),
    fun c hc b h1 h2 => hr.used b (h.filled c hc b h1 h2) (hP c hc b ⟨h1, h2⟩), h.apart, h.header_le,
    h.len_pos⟩

theorem keeps (h : Lodged o cs) (hr : o.Releases (fun _ => False) o') : Lodged o' cs :=
  h.releases hr (fun _ _ hp => hp) fun _ _ _ _ hp => hp

/-- The blocks of one chunk may become free if it is not needed any longer. -/
theorem drop (h : Lodged o (c :: cs)) (hr : o.Releases c.Covers o') : Lodged o' cs := by
  have hc := h.header_le c List.mem_cons_self
  refine h.of_cons.releases hr (fun b hb hcov => ?_) fun d hd b hb hcov => ?_
  · have := hcov.1
    omega
  · exact ((List.pairwise_cons.1 h.apart).1 d hd).not_covers hcov hb

theorem apart_of_ne (h : Lodged o cs) {d : Chunk} (hc : c ∈ cs) (hd : d ∈ cs) (hne : c ≠ d) :
    c.Apart d :=
  have : Std.Symm Chunk.Apart := ⟨fun _ _ => Chunk.Apart.symm⟩
  h.apart.forall hc hd hne

theorem header_le_of_vacant (h : Lodged o cs) (hn : 0 < n) (hv : o.Vacant start n) :
    BlockStore.headerBlocks ≤ start :=
  Nat.le_of_not_lt fun hlt => hv start (Nat.le_refl _) (by omega) (h.header start hlt)

theorem apart_of_vacant (h : Lodged o cs) (hc : c ∈ cs) (hn : 0 < n) (hv : o.Vacant start n) :
    c.after ≤ start ∨ start + n ≤ c.first := by
  have hl := h.len_pos c hc
  refine Decidable.byContradiction fun hno => ?_
  rw [Chunk.after_eq] at hno
  exact hv (max start c.first) (by omega) (by omega) (h.filled c hc _ (by omega) (by omega))

/-- A chunk joins on blocks that were free. -/
theorem add (h : Lodged o cs) (hl : 0 < c.len.toNat) (hv : o.Vacant c.first c.len.toNat)
    (hr : o.Releases (fun _ => False) o') (hf : o'.Filled c.first c.len.toNat) :
    Lodged o' (c :: cs) := by
  have h' := h.keeps hr
  exact ⟨h'.headerBlocks, h'.blockSize, h'.header, List.forall_mem_cons.2 ⟨hf, h'.filled⟩,
    List.pairwise_cons.2 ⟨fun _ hd => (h.apart_of_vacant hd hl hv).symm, h.apart⟩,
    List.forall_mem_cons.2 ⟨h.header_le_of_vacant hl hv, h.header_le⟩,
    List.forall_mem_cons.2 ⟨hl, h.len_pos⟩⟩

theorem after_le_stop (h : Lodged o cs) (hc : c ∈ cs) : c.after ≤ o.stop :=
  (h.filled c hc).le_stop (h.len_pos c hc)

theorem header_le_stop (h : Lodged o cs) : BlockStore.headerBlocks ≤ o.stop :=
  Occupancy.lt_stop (h.header (BlockStore.headerBlocks - 1) (by decide))

theorem sum_len_le (h : Lodged o cs) (hs : ds.Subperm cs) :
    (ds.map fun d => d.len.toNat).sum ≤ o.stop := by
  obtain ⟨l, hperm, hl⟩ := hs
  have hl' : l.Pairwise Chunk.Apart := h.apart.sublist hl
  exact Chunk.sum_len_le ((hperm.pairwise_iff Chunk.Apart.symm).1 hl') fun d hd =>
    h.after_le_stop (hl.subset (hperm.mem_iff.2 hd))

/-- Blocks that were free and have been taken can be given back. -/
theorem free_taken (h : Lodged o cs) {wasteful : List Bool} (hn : 0 < n) (hv : o.Vacant start n)
    (hroom : start + n < UInt64.size)
    (ho : o' = { o with used := o.used.insertRange start (start + n), wasteful }) :
    ∃ o'', o'.free (start * BlockStore.blockSize) (n * BlockStore.blockSize) = .ok o'' ∧
      o.Releases (fun _ => False) o'' := by
  subst ho
  refine ⟨_, Occupancy.free_eq h.blockSize (by decide) hroom ?_ ?_, .of_vacant ?_ hv⟩
  · rw [h.headerBlocks]
    exact h.header_le_of_vacant hn hv
  · exact fun b h1 h2 => Bitmap.mem_insertRange.2 (.inr ⟨h1, h2⟩)
  · have htaken : o.Releases (fun b => start ≤ b ∧ b < start + n)
        { o with used := o.used.insertRange start (start + n), wasteful } := .insert
    exact htaken.trans .erase

end Lodged

/-- The blocks of `c` in the file `b` pass for the record of `c`, and hold the payload `p`. -/
def Seals (b : ByteArray) (c : Chunk) (p : ByteArray) : Prop :=
  ∃ buf head, buf.size = c.byteLen ∧ Holds b (c.first * blockSize) buf ∧
    Frame.verify buf c = .ok head ∧ Frame.payload buf head = p

/-- The blocks of `c` are in the file `b'` what they are in `b`. -/
def Chunk.Kept (c : Chunk) (b b' : ByteArray) : Prop :=
  ∀ buf, buf.size = c.byteLen → Holds b (c.first * blockSize) buf →
    Holds b' (c.first * blockSize) buf

/-- Whatever superblock the file `b` has, `b'` has it too. -/
def Superblock.Kept (b b' : ByteArray) : Prop := ∀ s : Superblock, s.Names b → s.Names b'

namespace Superblock

variable {b : ByteArray} {ch : Change}

theorem Kept.refl (b : ByteArray) : Kept b b := fun _ h => h

theorem kept_of_avoids (h : ch.Avoids 0 headerBytes) : Kept b (ch.apply b) := by
  intro s hs
  have hfold : s.Names ([ch].foldl Change.apply b) := Names.foldl hs fun x hx => by
    rwa [List.mem_singleton.1 hx]
  exact hfold

/-- A chunk is written behind the superblock. -/
theorem kept_of_write {start : Nat} {data : ByteArray} (h : headerBlocks ≤ start) :
    Kept b (Change.apply b (.write (start * blockSize) data)) := by
  refine kept_of_avoids (.inr ?_)
  rw [Nat.zero_add, headerBytes]
  exact Nat.mul_le_mul_right _ h

end Superblock

namespace Chunk

variable {c : Chunk} {b b' b'' : ByteArray} {ch : Change}

theorem Kept.trans (h : c.Kept b b') (h' : c.Kept b' b'') : c.Kept b b'' :=
  fun buf hs hb => h' buf hs (h buf hs hb)

theorem kept_of_spares (h : ch.Spares c) : c.Kept b (ch.apply b) := by
  intro buf hs hb
  refine Change.Avoids.holds ?_ hb
  rw [hs]
  exact h

end Chunk

namespace Seals

variable {b b' p : ByteArray} {c : Chunk}

theorem kept (h : Seals b c p) (hk : c.Kept b b') : Seals b' c p := by
  obtain ⟨buf, head, hs, hb, h⟩ := h
  exact ⟨buf, head, hs, hk buf hs hb, h⟩

theorem after_le (h : Seals b c p) : c.after * blockSize ≤ b.size := by
  obtain ⟨buf, head, hs, hb, -⟩ := h
  have hle := hb.1
  rwa [hs, Chunk.byteLen, ← Nat.add_mul] at hle

/-- The blocks hold one payload only. -/
theorem unique {q : ByteArray} (h : Seals b c p) (h' : Seals b c q) : p = q := by
  obtain ⟨buf, head, hs, hb, hverify, hp⟩ := h
  obtain ⟨buf', head', hs', hb', hverify', hq⟩ := h'
  have hbuf : buf = buf' := by rw [← hb.2, ← hb'.2, hs, hs']
  subst hbuf
  obtain rfl := Except.ok.inj (hverify.symm.trans hverify')
  exact hp.symm.trans hq

theorem of_carries (h : Carries b c p) : Seals b c p :=
  ⟨_, _, Frame.size_framed h.fits, h.holds, Frame.verify_framed h.fits rfl rfl rfl,
    Frame.payload_framed h.fits⟩

end Seals

end BlockStore
