import BlockStore.Engine
import BlockStore.Proofs.Action
import BlockStore.Proofs.Frame
import BlockStore.Proofs.Layout

namespace BlockStore.Engine

open BlockStore.Action

variable {δ : Type} {e : Engine δ} {c : Chunk} {r : Reserved} {start n : Nat} {buf : ByteArray}

/-- The engine once it has taken `n` blocks from `start` on. -/
def taking (e : Engine δ) (start n : Nat) (wasteful : List Bool) : Engine δ :=
  { e with occupancy := { e.occupancy with
    used := e.occupancy.used.insertRange start (start + n), wasteful } }

/-- Room for blocks that are free and outside the reserved ones. -/
structure Room (e : Engine δ) (r : Reserved) (start n : Nat) : Prop where
  lt : start * blockSize < UInt64.size
  preview : e.occupancy.preview n r = .ok start
  vacant : e.occupancy.Vacant start n
  outside : e.occupancy.Outside r start n

theorem toNat_block (h : start * blockSize < UInt64.size) :
    (start * blockSize / blockSize).toUInt64.toNat = start := by
  rw [Nat.mul_div_cancel _ (by decide)]
  exact UInt64.toNat_ofNat_of_lt' (by simp only [mul_blockSize] at *; omega)

/-- An allocation that succeeds has found room. -/
theorem allocate_taking (hb : e.occupancy.blockSize = blockSize) :
    Ends (allocate (n * blockSize) r) e (fun pos e' => ∃ start wasteful, pos = start * blockSize ∧
      Room e r start n ∧ e' = e.taking start n wasteful) Any := by
  unfold allocate
  rw [ends_bind, ends_get, ends_bind]
  refine ends_of_checked fun ⟨pos, o⟩ ho => ?_
  obtain ⟨start, wasteful, rfl, hlt, hp, hv, hout, rfl⟩ :=
    Occupancy.of_allocate hb (by decide) ho
  rw [ends_bind, ends_modify]
  exact ends_pure.2 ⟨start, wasteful, rfl, ⟨hlt, hp, hv, hout⟩, rfl⟩

theorem checkPlaced_eq : Ends (checkPlaced c) e (fun _ e' => e' = e) Any := by
  unfold checkPlaced
  rw [ends_bind, ends_get, ends_bind]
  refine ends_of_checked fun start _ => ?_
  rw [ends_bind]
  refine ends_of_checked fun used _ => ?_
  dsimp only
  split
  · rw [ends_bind]
    refine ends_of_checked fun stop _ => ?_
    split
    · exact ends_refuse.2 trivial
    · exact ends_pure.2 rfl
  · rw [ends_bind]
    exact ends_any fun _ _ => ends_refuse.2 trivial

variable [Device δ]

/-- What a write to the blocks of a chunk achieves, unless it fails. -/
theorem writeChunk_of_write {Q : Engine δ → Prop}
    (h : Ends (write (c.first * blockSize) buf) e (fun _ => Q) Any) :
    Ends (writeChunk c buf) e (fun _ => Q) Any := by
  unfold writeChunk
  rw [ends_bind]
  refine ends_of_checked fun start hstart => ?_
  obtain ⟨-, rfl⟩ := word64_eq_ok.1 hstart
  exact h.attempted (fun _ _ hq => ends_pure.2 hq) fun _ _ => ends_refusing

/-- A payload that is placed is given a place and written there, once its frame is made up. -/
theorem place_of_settle {p : ByteArray} {Q : Chunk → Engine δ → Prop}
    (hpool : ∀ placed e' pool, Q placed e' → Q placed { e' with pool })
    (h : ∀ len framed pool, Chunk.blocksHolding p.size = .ok len → Ends (do
      let (placed, framed) ← allocateFor
        { c with len, size := p.size.toUInt64, liveSize := p.size.toUInt64 } framed
      writeChunk placed framed
      return placed) { e with pool } Q Any) : Ends (place c p) e Q Any := by
  unfold place
  rw [ends_bind]
  refine ends_of_checked fun len hlen => ?_
  dsimp only
  split
  · exact ends_bind.2 (ends_refuse.2 trivial)
  unfold acquire
  rw [ends_bind, ends_bind, ends_get, ends_bind]
  refine ends_of_checked fun ⟨empty, pool⟩ _ => ?_
  rw [ends_bind, ends_modify, ends_pure]
  split
  · exact ends_bind.2 (ends_throw.2 trivial)
  rw [ends_bind]
  refine ends_of_checked fun framed _ => ?_
  refine (h len framed pool hlen).attempted (fun placed e' hq => ?_) fun _ _ => ends_refusing
  rw [ends_bind, release, ends_modify]
  exact ends_pure.2 (hpool placed e' _ hq)

/-- A framed record that has been given a place. -/
structure Settled (e : Engine δ) (c : Chunk) (buf : ByteArray) (placed : Chunk)
    (framed : ByteArray) : Prop where
  record : ∃ block next, placed = { c with block, next }
  len_pos : 0 < c.len.toNat
  size_eq : buf.size = c.byteLen
  framed : ∃ payload, Frame.payloadSize buf = .ok payload ∧ Frame.write buf placed payload = .ok framed
  room : Room e e.heldBack placed.first c.len.toNat

theorem allocateFor_taking (hb : e.occupancy.blockSize = blockSize) :
    Ends (allocateFor c buf) e (fun a e' => Settled e c buf a.1 a.2 ∧
      ∃ wasteful, e' = e.taking a.1.first c.len.toNat wasteful) Any := by
  have hbytes : c.byteLen = c.len.toNat * blockSize := rfl
  unfold allocateFor
  rw [ends_bind, ends_get]
  by_cases hro : e.readOnly = true
  · rw [if_pos hro, ends_bind]
    exact ends_refuse.2 trivial
  rw [if_neg hro]
  by_cases hsize : buf.size ≠ c.byteLen ∨ c.byteLen = 0
  · rw [if_pos hsize, ends_bind]
    exact ends_refuse.2 trivial
  rw [if_neg hsize]
  obtain ⟨hsize, hn⟩ := not_or.1 hsize
  have hlen : 0 < c.len.toNat := by
    rw [hbytes, mul_blockSize] at hn
    omega
  rw [ends_bind]
  cases hpayload : Frame.payloadSize buf with
  | error f => exact ends_iff.2 trivial
  | ok payload =>
  refine (ends_except rfl).2 ?_
  refine (allocate_taking hb).bind ?_ fun _ _ hf => hf
  rintro _ e₁ ⟨start, wasteful, rfl, hroom, rfl⟩
  have hfirst := toNat_block hroom.lt
  -- What is expected of the next chunk makes no difference.
  have hplaced (next : UInt64) : Ends (do
      let framed ← liftM (Frame.write buf
        { c with block := (start * blockSize / blockSize).toUInt64, next } payload)
      checkPlaced { c with block := (start * blockSize / blockSize).toUInt64, next }
      return (({ c with block := (start * blockSize / blockSize).toUInt64, next } : Chunk), framed))
        (e.taking start c.len.toNat wasteful) (fun a e' => Settled e c buf a.1 a.2 ∧
          ∃ wasteful, e' = e.taking a.1.first c.len.toNat wasteful) Any := by
    rw [ends_bind]
    refine ends_of_checked fun framed hframed => ?_
    refine checkPlaced_eq.bind ?_ fun _ _ hf => hf
    rintro _ _ rfl
    refine ends_pure.2 ⟨⟨⟨_, _, rfl⟩, hlen, Classical.not_not.1 hsize,
      ⟨payload, hpayload, hframed⟩, ?_⟩, wasteful, ?_⟩
    · rwa [Chunk.first, hfirst]
    · rw [Chunk.first, hfirst]
  dsimp only
  split
  · rw [ends_bind, ends_get, ends_bind]
    exact ends_of_checked fun next _ => hplaced _
  · rw [ends_bind, ends_pure]
    exact hplaced _

end BlockStore.Engine
