import BlockStore.Chunk
import BlockStore.Proofs.Occupancy

namespace BlockStore

namespace Chunk

def first (c : Chunk) : Nat := c.block.toNat

/-- The block behind the chunk. -/
def after (c : Chunk) : Nat := c.block.toNat + c.len.toNat

def Covers (c : Chunk) (b : Nat) : Prop := c.first ≤ b ∧ b < c.after

def Apart (c d : Chunk) : Prop := c.after ≤ d.first ∨ d.after ≤ c.first

variable {c d : Chunk} {b n : Nat}

theorem Apart.symm (h : c.Apart d) : d.Apart c := Or.symm h

theorem Apart.not_covers (h : c.Apart d) (hc : c.Covers b) : ¬d.Covers b := by
  intro hd
  simp only [Apart, Covers] at *
  omega

theorem after_eq (c : Chunk) : c.after = c.first + c.len.toNat := rfl

theorem start_eq (h : c.first * blockSize < UInt64.size) : c.start = .ok (c.first * blockSize) :=
  word64_of_lt h

theorem stop_eq (h : c.after < UInt64.size) : c.stop = .ok c.after := word64_of_lt h

/-- A record can be named in a message unless its end is out of range. -/
theorem describe_eq (h : c.saved → c.after < UInt64.size) : c.describe = .ok c.label := by
  unfold describe
  cases hs : c.saved with
  | false => rfl
  | true => rw [stop_eq (h hs)]; rfl

/-- Chunks that are apart are together no longer than the blocks they lie on. -/
theorem sum_len_le_card {cs : List Chunk} (ha : cs.Pairwise Apart) {s : Finset Nat}
    (hs : ∀ c ∈ cs, Finset.Ico c.first c.after ⊆ s) :
    (cs.map fun c => c.len.toNat).sum ≤ s.card := by
  induction cs generalizing s with
  | nil => exact Nat.zero_le _
  | cons c cs ih =>
    obtain ⟨hc, hcs⟩ := List.pairwise_cons.1 ha
    have hmem := hs c List.mem_cons_self
    have hrest : (cs.map fun c => c.len.toNat).sum ≤ (s \ Finset.Ico c.first c.after).card := by
      refine ih hcs fun d hd b hb => ?_
      have hb' := Finset.mem_Ico.1 hb
      refine Finset.mem_sdiff.2 ⟨hs d (List.mem_cons_of_mem _ hd) hb, fun hbc => ?_⟩
      exact (hc d hd).not_covers (Finset.mem_Ico.1 hbc) hb'
    have hcard := Finset.card_sdiff_add_card_eq_card hmem
    have hsize : (Finset.Ico c.first c.after).card = c.len.toNat := by
      rw [Nat.card_Ico, after_eq, Nat.add_sub_cancel_left]
    rw [List.map_cons, List.sum_cons]
    omega

theorem sum_len_le {cs : List Chunk} (ha : cs.Pairwise Apart) (hn : ∀ c ∈ cs, c.after ≤ n) :
    (cs.map fun c => c.len.toNat).sum ≤ n := by
  have h := sum_len_le_card (s := Finset.range n) ha fun c hc b hb =>
    Finset.mem_range.2 (Nat.lt_of_lt_of_le (Finset.mem_Ico.1 hb).2 (hn c hc))
  rwa [Finset.card_range] at h

end Chunk

open Occupancy

/-- The blocks in use are those of the header and of the chunks that are held, and no two of these
share a block. -/
structure Layout (o : Occupancy) (held : List Chunk) : Prop where
  headerBlocks : o.headerBlocks = headerBlocks
  blockSize : o.blockSize = blockSize
  mem_used : ∀ b, b ∈ o.used ↔ b < BlockStore.headerBlocks ∨ ∃ c ∈ held, c.Covers b
  apart : held.Pairwise Chunk.Apart
  header_le : ∀ c ∈ held, BlockStore.headerBlocks ≤ c.first
  len_pos : ∀ c ∈ held, 0 < c.len.toNat

namespace Layout

variable {o : Occupancy} {held held' : List Chunk} {c : Chunk} {wasteful : List Bool}

theorem create : Layout (.create BlockStore.headerBlocks BlockStore.blockSize) [] where
  headerBlocks := rfl
  blockSize := rfl
  mem_used b := by simp [Occupancy.create]
  apart := .nil
  header_le := nofun
  len_pos := nofun

theorem perm (h : Layout o held) (hp : held.Perm held') : Layout o held' where
  headerBlocks := h.headerBlocks
  blockSize := h.blockSize
  mem_used b := by simp only [h.mem_used, hp.mem_iff]
  apart := (hp.pairwise_iff Chunk.Apart.symm).1 h.apart
  header_le c hc := h.header_le c (hp.mem_iff.2 hc)
  len_pos c hc := h.len_pos c (hp.mem_iff.2 hc)

theorem sub (h : Layout o held) {part : List Chunk} (hs : part.Subperm held) :
    part.Pairwise Chunk.Apart ∧ (∀ c ∈ part, BlockStore.headerBlocks ≤ c.first) ∧
      ∀ c ∈ part, 0 < c.len.toNat := by
  obtain ⟨l, hperm, hl⟩ := hs
  exact ⟨(hperm.pairwise_iff Chunk.Apart.symm).1 (h.apart.sublist hl),
    fun c hc => h.header_le c (hl.subset (hperm.mem_iff.2 hc)),
    fun c hc => h.len_pos c (hl.subset (hperm.mem_iff.2 hc))⟩

theorem filled (h : Layout o held) (hc : c ∈ held) : o.Filled c.first c.len.toNat :=
  fun b h1 h2 => (h.mem_used b).2 (.inr ⟨c, hc, h1, h2⟩)

theorem after_le_stop (h : Layout o held) (hc : c ∈ held) : c.after ≤ o.stop :=
  (h.filled hc).le_stop (h.len_pos c hc)

theorem header_le_stop (h : Layout o held) : BlockStore.headerBlocks ≤ o.stop :=
  lt_stop ((h.mem_used (BlockStore.headerBlocks - 1)).2 (.inl (by decide)))

theorem header_le_of_vacant {start n : Nat} (h : Layout o held) (hn : 0 < n)
    (hv : o.Vacant start n) : BlockStore.headerBlocks ≤ start :=
  Nat.le_of_not_lt fun hlt =>
    hv start (Nat.le_refl _) (by omega) ((h.mem_used start).2 (.inl hlt))

theorem not_vacant (h : Layout o held) (hc : c ∈ held) {start n : Nat} (hv : o.Vacant start n)
    (hn : 0 < n) : c.after ≤ start ∨ start + n ≤ c.first := by
  refine Decidable.byContradiction fun hno => ?_
  have hl := h.len_pos c hc
  rw [Chunk.after_eq] at hno
  exact hv (max start c.first) (by omega) (by omega)
    (h.filled hc _ (by omega) (by omega))

theorem vacant (h : Layout o held) (hc : ∀ d ∈ held, c.Apart d)
    (hle : BlockStore.headerBlocks ≤ c.first) : o.Vacant c.first c.len.toNat := by
  intro b h1 h2 hb
  rcases (h.mem_used b).1 hb with hb | ⟨d, hd, hb⟩
  · omega
  · exact (hc d hd).not_covers ⟨h1, h2⟩ hb

/-- A chunk on blocks that were free joins. -/
theorem add (h : Layout o held) (hl : 0 < c.len.toNat) (hv : o.Vacant c.first c.len.toNat) :
    Layout { o with used := o.used.insertRange c.first c.after, wasteful } (c :: held) where
  headerBlocks := h.headerBlocks
  blockSize := h.blockSize
  mem_used b := by
    simp only [Bitmap.mem_insertRange, h.mem_used, List.exists_mem_cons_iff, Chunk.Covers]
    rw [or_assoc]
    exact or_congr_right Or.comm
  apart := List.pairwise_cons.2 ⟨fun _ hd => (h.not_vacant hd hv hl).symm, h.apart⟩
  header_le := List.forall_mem_cons.2 ⟨h.header_le_of_vacant hl hv, h.header_le⟩
  len_pos := List.forall_mem_cons.2 ⟨hl, h.len_pos⟩

/-- A chunk leaves, and its blocks become free. -/
theorem drop (h : Layout o (c :: held)) :
    Layout { o with used := o.used.eraseRange c.first c.after } held where
  headerBlocks := h.headerBlocks
  blockSize := h.blockSize
  mem_used b := by
    have hc := h.header_le c List.mem_cons_self
    have ha := (List.pairwise_cons.1 h.apart).1
    simp only [Bitmap.mem_eraseRange, h.mem_used, List.exists_mem_cons_iff]
    constructor
    · rintro ⟨hb | hb | hb, hout⟩
      · exact .inl hb
      · exact absurd hb hout
      · exact .inr hb
    · rintro (hb | ⟨d, hd, hb⟩)
      · exact ⟨.inl hb, fun hin => by omega⟩
      · exact ⟨.inr (.inr ⟨d, hd, hb⟩), fun hin => (ha d hd).not_covers hin hb⟩
  apart := h.apart.of_cons
  header_le d hd := h.header_le d (List.mem_cons_of_mem _ hd)
  len_pos d hd := h.len_pos d (List.mem_cons_of_mem _ hd)

end Layout

end BlockStore
