import BlockStore.Proofs.Engine

namespace BlockStore

open Bytes

theorem Bytes.overwrite_zeros (source : ByteArray) :
    overwrite (zeros source.size) 0 source = source := by
  refine ext_toList ?_
  rw [toList_overwrite, toList_zeros, List.take_zero, List.nil_append, Nat.zero_add,
    List.drop_of_length_le (by rw [List.length_replicate]), List.append_nil]

/-- The record of a chunk that has moved. -/
def Chunk.movedTo (c : Chunk) (start : Nat) : Chunk :=
  { c with block := start.toUInt64, next := 0 }

theorem Chunk.first_movedTo (c : Chunk) {start : Nat} (h : start < UInt64.size) :
    (c.movedTo start).first = start := UInt64.toNat_ofNat_of_lt' h

namespace Chunk

/-- Blocks for a payload of `n` bytes and its frame. -/
def blocksFor (n : Nat) : Nat := blocksCovering (headSize + n + footSize) blockSize

/-- The record of a chunk that is to hold `p`. -/
def holding (c : Chunk) (p : ByteArray) : Chunk :=
  { c with
    len := (blocksFor p.size).toUInt32
    size := p.size.toUInt64
    liveSize := p.size.toUInt64 }

variable {p : ByteArray}

theorem blocksFor_bounds {n : Nat} (h : n < UInt32.size) :
    0 < blocksFor n ∧ blocksFor n < UInt32.size ∧ headSize + n + footSize ≤ 4096 * blocksFor n := by
  simp only [blocksFor, blocksCovering, headSize, footSize, blockSize, UInt32.size] at *
  omega

theorem len_holding (c : Chunk) (h : p.size < UInt32.size) :
    (c.holding p).len.toNat = blocksFor p.size :=
  UInt32.toNat_ofNat_of_lt' (blocksFor_bounds h).2.1

theorem fits_holding (c : Chunk) (h : p.size < UInt32.size) : Frame.Fits (c.holding p) p := by
  refine ⟨?_, h⟩
  rw [byteLen, len_holding c h, mul_blockSize]
  exact (blocksFor_bounds h).2.2

theorem blocksHolding_eq (c : Chunk) (h : p.size < UInt32.size) :
    blocksHolding p.size = .ok (c.holding p).len := by
  rw [blocksHolding, word64_of_lt (by
    simp only [headSize, footSize, UInt32.size, UInt64.size] at *
    omega)]
  rfl

end Chunk

namespace Engine

open BlockStore.Action Device

variable {δ : Type} [Device δ] {e : Engine δ} {m : Medium} {c : Chunk} {p buf : ByteArray}
  {r : Reserved} {n start : Nat}

/-- To place a payload is to settle its frame: buffers come and go around that. -/
theorem place_of_framed {Q : Chunk → Engine δ → Prop} {E : Failure → Engine δ → Prop}
    (hp : p.size < UInt32.size) (hq : ∀ placed e₁ pool, Q placed e₁ → Q placed { e₁ with pool })
    (he : ∀ f e₁ pool, E f e₁ → E f { e₁ with pool })
    (hsettle : ∀ pool, Ends (do
      let (placed, framed) ← allocateFor (c.holding p) (Frame.framed (c.holding p) p)
      writeChunk placed framed
      return placed) { e with pool } Q E) : Ends (place c p) e Q E := by
  have hf := Chunk.fits_holding c hp
  have hbytes : (c.holding p).byteLen < Bytes.limit := by
    have hlen := (c.holding p).len.toNat_lt
    have hlimit : Bytes.limit = 2 ^ 63 := by decide
    rw [Chunk.byteLen, hlimit, mul_blockSize]
    omega
  obtain ⟨pool, hacquire⟩ := acquire_run (e := e) hbytes
  unfold place
  rw [ends_bind, ends_checked (c.blocksHolding_eq hp)]
  change Ends (if UInt32.size ≤ p.size then _ else _) e _ _
  rw [if_neg (by omega), ends_bind]
  refine .of_run hacquire ?_
  change Ends (if (c.holding p).byteLen < Chunk.headSize + p.size then _ else _) _ _ _
  rw [if_neg (by have := hf.1; omega), ends_bind]
  refine (ends_checked (Frame.write_blank hf)).2 ?_
  rw [ends_bind, ends_attempt]
  refine (hsettle pool).mono (fun placed e₁ hplaced => ?_) fun f e₁ hf' => ?_
  · rw [ends_bind]
    exact .of_run rfl (ends_pure.2 (hq placed e₁ _ hplaced))
  · cases f with
    | fault f => exact hf'
    | error cause =>
      dsimp only
      rw [ends_bind]
      exact .of_run rfl (ends_refuse.2 (he _ e₁ _ hf'))

variable [Lawful δ]

/-- The chunk lies on blocks that are free in `e` and open under `r`, and has room for `p`. -/
structure Fresh (e : Engine δ) (r : Reserved) (c : Chunk) (p : ByteArray) : Prop where
  fits : Frame.Fits c p
  len_pos : 0 < c.len.toNat
  vacant : e.occupancy.Vacant c.first c.len.toNat
  outside : e.occupancy.Outside r c.first c.len.toNat
  le_ceiling : c.first ≤ e.occupancy.ceiling r
  room : c.after * blockSize < Lawful.room δ

/-- The engine has taken the blocks of `c` and written `p` there in its frame. -/
def Puts (e : Engine δ) (c : Chunk) (p : ByteArray) (m : Medium) (e' : Engine δ) : Prop :=
  Takes e c.first c.len.toNat (m.change (.write (c.first * blockSize) (Frame.framed c p))) e'

theorem Fresh.of_keeps {e' : Engine δ} (h : Fresh e' r c p) (k : Keeps e m e') : Fresh e r c p := by
  obtain ⟨h1, h2, h3, h4, h5, h6⟩ := h
  rw [k.2.1] at h3 h4 h5
  exact ⟨h1, h2, h3, h4, h5, h6⟩

theorem Keeps.heldBack_eq {e' : Engine δ} (k : Keeps e m e') (h : e.Shows m) :
    e'.heldBack = e.heldBack := by
  have hr : e'.reserved = e.reserved := congrArg Mode.reserved k.2.2
  have hu : e'.reuse = e.reuse := congrArg Mode.reuse k.2.2
  have ha : e'.appendFrom = e.appendFrom := by
    rw [appendFrom, appendFrom, size_eq k.1, size_eq h, k.2.1]
  rw [heldBack, heldBack, hr, hu, ha]

theorem fresh_of_preview (hn : 0 < c.len.toNat) (hf : Frame.Fits c p)
    (hroom : (e.occupancy.ceiling r + c.len.toNat) * blockSize < Lawful.room δ)
    (hp : e.occupancy.preview c.len.toNat r = .ok start) (hc : c.block = start.toUInt64) :
    c.first = start ∧ Fresh e r c p := by
  have hlt := room_lt (δ := δ)
  obtain ⟨hle, hv, ho⟩ := Occupancy.of_preview hn (by simp only [mul_blockSize] at *; omega) hp
  have hfirst : c.first = start := by
    rw [Chunk.first, hc]
    exact UInt64.toNat_ofNat_of_lt' (by simp only [mul_blockSize] at *; omega)
  refine ⟨hfirst, hf, hn, by rwa [hfirst], by rwa [hfirst], by rwa [hfirst], ?_⟩
  rw [Chunk.after_eq, hfirst]
  simp only [mul_blockSize] at *
  omega

/-- A frame on a chunk that has its place fits the device. -/
theorem Fresh.write_lt (h : Fresh e r c p) :
    c.first * blockSize + (Frame.framed c p).size < Lawful.room δ := by
  rw [Frame.size_framed h.fits, Chunk.byteLen, ← Nat.add_mul]
  exact h.room

omit [Device δ] [Lawful δ] in
/-- A chunk that is not held to a reservation does not move up. -/
theorem not_ahead (hfirst : (c.movedTo start).first = start)
    (hback : r.high = none → start ≤ c.first) :
    ¬(r.high.isNone && decide (c.block < start.toUInt64)) = true := by
  simp only [Bool.and_eq_true, Option.isNone_iff_eq_none, decide_eq_true_eq, not_and]
  intro hnone hlt
  have hle := hback hnone
  rw [UInt64.lt_iff_toNat_lt] at hlt
  simp only [Chunk.first, Chunk.movedTo] at *
  omega

/-- A copy goes where the preview says, and its frame names that place. -/
theorem copy_ends (h : e.Shows m) (hb : e.occupancy.blockSize = blockSize)
    (hd : Holds m.content (c.first * blockSize) (Frame.framed c p)) (hf : Frame.Fits c p)
    (hn : 0 < c.len.toNat)
    (hroom : (e.occupancy.ceiling r + c.len.toNat) * blockSize < Lawful.room δ)
    (hp : e.occupancy.preview c.len.toNat r = .ok start) (hback : r.high = none → start ≤ c.first) :
    Ends (copy c r) e (fun moved e' => moved = c.movedTo start ∧ moved.first = start ∧
      Fresh e r moved p ∧ Puts e moved p m e') (Stops m) := by
  have hlim := Lawful.room_le (δ := δ)
  obtain ⟨hfirst, hfresh⟩ := fresh_of_preview (c := c.movedTo start) (p := p) hn hf hroom hp rfl
  have hsize : (Frame.framed c p).size < Bytes.limit := by
    rw [Frame.size_framed hf, Chunk.byteLen]
    simp only [mul_blockSize] at *
    omega
  have hdiv : (start * blockSize / blockSize).toUInt64 = start.toUInt64 := by
    rw [Nat.mul_div_cancel _ (by decide)]
  have hw (d d' : Chunk) (hl : d.len = d'.len) : Frame.write (Frame.framed d' p) d
      (Frame.Head.ofChunk c p.size.toUInt32).payload = .ok (Frame.framed d p) :=
    Frame.write_framed hl
  have hwrite := hfresh.write_lt
  rw [hfirst] at hwrite
  unfold copy
  refine (load_ends h hd hf rfl rfl rfl).bind ?_ fun _ _ => False.elim
  rintro _ e₁ ⟨rfl, k₁⟩
  dsimp only
  refine (acquire_ends k₁.1 hsize).bind ?_ fun _ _ => False.elim
  rintro _ e₂ ⟨rfl, k₂⟩
  have k₂ := k₁.trans k₂
  rw [overwrite_zeros, ends_bind,
    ends_checked (hw { c with block := unsaved, next := 0 } c rfl)]
  have hp₂ : e₂.occupancy.preview c.len.toNat r = .ok start := k₂.2.1 ▸ hp
  refine (allocate_ends k₂.1 (k₂.2.1 ▸ hb) hn (k₂.2.1 ▸ hroom) hp₂).bind ?_ fun _ _ => False.elim
  rintro _ e₃ ⟨rfl, k₃⟩
  have k₃ := k₂.takes k₃
  rw [hdiv, if_neg (not_ahead hfirst hback), ends_bind,
    ends_checked (hw { c with block := start.toUInt64, next := 0 }
      { c with block := unsaved, next := 0 } rfl), ends_bind, ends_attempt]
  refine (write_ends k₃.1 (Frame.size_wrap_pos ..) hwrite).mono (fun _ e₄ k₄ => ?_) fun f e₄ k₄ => ?_
  · refine (release_ends k₄.1).bind (fun _ e₅ k₅ => ?_) fun _ _ => False.elim
    have hputs : Puts e (c.movedTo start) p m e₅ := by
      rw [Puts, hfirst]
      exact (k₃.keeps k₄).keeps k₅
    exact ends_pure.2 ⟨rfl, hfirst, hfresh, hputs⟩
  · cases f with
    | fault f => exact k₄
    | error cause =>
      refine (release_ends k₄.2).bind (fun _ e₅ k₅ => ?_) fun _ _ => False.elim
      refine (free_ends_device k₅.1 _ _).bind (fun _ e₆ k₆ => ?_) fun _ _ k₆ => ⟨k₄.1, k₆⟩
      exact ends_refuse.2 ⟨k₄.1, k₆⟩

omit [Device δ] [Lawful δ] in
theorem checkPlaced_ends (hb : e.occupancy.blockSize = blockSize)
    (hn : 0 < c.len.toNat) (hc : e.occupancy.Filled c.first c.len.toNat)
    (hroom : c.after * blockSize < UInt64.size) :
    Ends (checkPlaced c) e (fun _ e' => e' = e) fun _ _ => False := by
  have ha := c.after_eq
  have hstart : c.first * blockSize < UInt64.size := by simp only [mul_blockSize] at *; omega
  have hstop : c.after < UInt64.size := by simp only [mul_blockSize] at *; omega
  have hused := Occupancy.isUsed_eq hb (by decide) (by rwa [← ha])
  rw [decide_eq_true (Occupancy.filled_iff.1 hc)] at hused
  have hlast := hc.le_stop hn
  unfold checkPlaced
  rw [ends_bind, ends_get, ends_bind, ends_checked (Chunk.start_eq hstart), ends_bind, Chunk.byteLen,
    ends_checked hused, if_pos rfl, ends_bind, ends_checked (Chunk.stop_eq hstop), if_neg (by omega)]
  exact ends_pure.2 rfl

theorem Takes.filled {e' : Engine δ} (h : Takes e start n m e') : e'.occupancy.Filled start n := by
  obtain ⟨-, -, w, ho⟩ := h
  intro b h1 h2
  rw [ho]
  exact Bitmap.mem_insertRange.2 (.inr ⟨h1, h2⟩)

theorem Takes.stop_le {e' : Engine δ} (h : Takes e start n m e') :
    e'.occupancy.stop ≤ max e.occupancy.stop (start + n) := by
  obtain ⟨-, -, w, ho⟩ := h
  rw [ho]
  refine Occupancy.stop_le fun b hb => ?_
  rcases Bitmap.mem_insertRange.1 hb with hb | hb
  · have := Occupancy.lt_stop hb
    omega
  · omega

theorem Takes.blockSize_eq {e' : Engine δ} (h : Takes e start n m e') :
    e'.occupancy.blockSize = e.occupancy.blockSize := by
  obtain ⟨-, -, w, ho⟩ := h
  rw [ho]

/-- With the blocks taken, framing and checking a chunk cannot fail. -/
theorem framedAt_ends {e₁ : Engine δ} {d : Chunk} {block next : UInt64}
    (k₁ : Takes e start c.len.toNat m e₁) (hb : e.occupancy.blockSize = blockSize)
    (hfirst : Chunk.first { c with block, next } = start)
    (hfresh : Fresh e r { c with block, next } p) (hd : d.len = c.len) :
    Ends (do
      let framed ← liftM (Frame.write (Frame.framed d p) { c with block, next } p.size.toUInt32)
      checkPlaced { c with block, next }
      return (({ c with block, next } : Chunk), framed)) e₁ (fun a e' =>
        (∃ block next, a.1 = { c with block, next }) ∧ a.2 = Frame.framed a.1 p ∧
          Fresh e r a.1 p ∧ Takes e a.1.first a.1.len.toNat m e') fun _ _ => False := by
  have hlt := room_lt (δ := δ)
  have hroom := hfresh.room
  have htakes : Takes e (Chunk.first { c with block, next }) c.len.toNat m e₁ := by rwa [hfirst]
  rw [ends_bind]
  refine (ends_checked (Frame.write_framed (c := d) (d := { c with block, next }) hd.symm)).2 ?_
  refine (checkPlaced_ends (k₁.blockSize_eq.trans hb) hfresh.len_pos htakes.filled (by omega)).bind
    ?_ fun _ _ => False.elim
  rintro _ _ rfl
  exact ends_pure.2 ⟨⟨_, _, rfl⟩, rfl, hfresh, htakes⟩

/-- A new chunk gets the blocks that the preview announces. -/
theorem allocateFor_ends (h : e.Shows m) (hb : e.occupancy.blockSize = blockSize)
    (hf : Frame.Fits c p) (hn : 0 < c.len.toNat)
    (hroom : (e.occupancy.ceiling e.heldBack + c.len.toNat) * blockSize < Lawful.room δ) :
    Ends (allocateFor c (Frame.framed c p)) e (fun a e' =>
      (∃ block next, a.1 = { c with block, next }) ∧ a.2 = Frame.framed a.1 p ∧
        Fresh e e.heldBack a.1 p ∧ Takes e a.1.first a.1.len.toNat m e') fun _ _ => False := by
  have hlt := room_lt (δ := δ)
  obtain ⟨start, hp, hle, -⟩ := Occupancy.preview_spec (o := e.occupancy) (r := e.heldBack) hn
    (by simp only [mul_blockSize] at *; omega)
  have hdiv : (start * blockSize / blockSize).toUInt64 = start.toUInt64 := by
    rw [Nat.mul_div_cancel _ (by decide)]
  have hbytes : c.byteLen = c.len.toNat * blockSize := rfl
  unfold allocateFor
  rw [ends_bind, ends_get, readOnly_eq h, if_neg Bool.false_ne_true, Frame.size_framed hf,
    if_neg (by rw [hbytes, mul_blockSize]; omega), ends_bind]
  refine (ends_except (congrArg (Except.mapError _) (Frame.payloadSize_framed hf))).2 ?_
  refine (allocate_ends (r := e.heldBack) h hb hn hroom hp).bind ?_ fun _ _ => False.elim
  rintro _ e₁ ⟨rfl, k₁⟩
  rw [hdiv]
  have hstop := k₁.stop_le
  have hceil : e.occupancy.stop ≤ e.occupancy.ceiling e.heldBack := Nat.le_max_left _ _
  obtain ⟨next, hnext, -⟩ := Occupancy.preview_spec (o := e₁.occupancy) (r := .nothing) hn (by
    simp only [Occupancy.ceiling, Reserved.nothing, Option.getD_some, mul_blockSize] at *
    omega)
  have hplaced (next : Nat) := fresh_of_preview
    (c := { c with block := start.toUInt64, next := next.toUInt64 }) (p := p) hn hf hroom hp rfl
  dsimp only
  split
  · rw [ends_bind, ends_get, ends_bind, ends_checked hnext]
    exact framedAt_ends k₁ hb (hplaced _).1 (hplaced _).2 rfl
  · rw [ends_bind, ends_pure]
    exact framedAt_ends k₁ hb (hplaced _).1 (hplaced _).2 rfl

theorem writeChunk_ends (h : e.Shows m) {e₀ : Engine δ} (hf : Fresh e₀ r c p) :
    Ends (writeChunk c (Frame.framed c p)) e
      (fun _ => Keeps e (m.change (.write (c.first * blockSize) (Frame.framed c p)))) (Stops m) := by
  have hlt := room_lt (δ := δ)
  have hwrite := hf.write_lt
  have hstart := Chunk.start_eq (c := c) (by omega)
  unfold writeChunk
  rw [ends_bind, ends_checked hstart, ends_bind, ends_attempt]
  refine (write_ends h (Frame.size_wrap_pos ..) hwrite).mono (fun _ e₁ k₁ => ends_pure.2 k₁) fun f e₁ k₁ => ?_
  cases f with
  | fault f => exact k₁
  | error cause =>
    dsimp only
    unfold freeChunk
    rw [ends_bind, ends_bind, ends_checked hstart]
    refine (free_ends_device k₁.2 _ _).mono (fun _ e₂ k₂ => ?_) fun _ _ k₂ => ⟨k₁.1, k₂⟩
    exact ends_refuse.2 ⟨k₁.1, k₂⟩

/-- A record like `c` has got a place, and `p` in its frame is there. -/
def Places (e : Engine δ) (c : Chunk) (p : ByteArray) (m : Medium) (placed : Chunk)
    (e' : Engine δ) : Prop :=
  (∃ block next, placed = { c with block, next }) ∧ Fresh e e.heldBack placed p ∧ Puts e placed p m e'

theorem Keeps.places {e₁ e₂ : Engine δ} {m' : Medium} {placed : Chunk} (k : Keeps e m e₁)
    (h : e.Shows m) (hp : Places e₁ c p m' placed e₂) : Places e c p m' placed e₂ := by
  obtain ⟨hplaced, hfresh, hputs⟩ := hp
  rw [k.heldBack_eq h] at hfresh
  exact ⟨hplaced, hfresh.of_keeps k, k.takes hputs⟩

theorem place_of {E : Failure → Engine δ → Prop} (h : e.Shows m) (hp : p.size < UInt32.size)
    (hpool : ∀ f e₁ pool, E f e₁ → E f { e₁ with pool })
    (hsettle : ∀ e₁, Keeps e m e₁ → Ends (do
      let (placed, framed) ← allocateFor (c.holding p) (Frame.framed (c.holding p) p)
      writeChunk placed framed
      return placed) e₁ (Places e₁ (c.holding p) p m) E) :
    Ends (place c p) e (Places e (c.holding p) p m) E := by
  refine place_of_framed hp (fun placed e₁ pool hplaces => ?_) hpool fun pool => ?_
  · obtain ⟨hplaced, hfresh, hputs⟩ := hplaces
    exact ⟨hplaced, hfresh, hputs.keeps ⟨hputs.1, rfl, rfl⟩⟩
  · have k : Keeps e m { e with pool } := ⟨h, rfl, rfl⟩
    exact (hsettle _ k).mono (fun _ _ hplaces => k.places h hplaces) fun _ _ hE => hE

/-- A payload below the format's limit is placed, if the device can take it at all. -/
theorem place_ends (h : e.Shows m) (hb : e.occupancy.blockSize = blockSize)
    (hp : p.size < UInt32.size)
    (hroom : (e.occupancy.ceiling e.heldBack + Chunk.blocksFor p.size) * blockSize < Lawful.room δ) :
    Ends (place c p) e (fun placed e' =>
      (∃ block next, placed = { c.holding p with block, next }) ∧
        Fresh e e.heldBack placed p ∧ Puts e placed p m e') (Stops m) := by
  have hl := Chunk.len_holding c hp
  have hpos := (Chunk.blocksFor_bounds hp).1
  refine place_of h hp (fun _ _ _ => id) fun e₁ k₁ => ?_
  rw [ends_bind]
  refine (allocateFor_ends k₁.1 (k₁.2.1 ▸ hb) (Chunk.fits_holding c hp) (by omega)
    (by rw [k₁.2.1, k₁.heldBack_eq h, hl]; exact hroom)).mono ?_ fun _ _ => False.elim
  rintro ⟨placed, framed⟩ e₂ ⟨hplaced, hframed, hfresh, htakes⟩
  dsimp only at hplaced hframed hfresh htakes ⊢
  subst hframed
  rw [ends_bind]
  exact (writeChunk_ends htakes.1 hfresh).mono (fun _ e₃ k₃ =>
    ends_pure.2 ⟨hplaced, hfresh, htakes.keeps k₃⟩) fun _ _ => id

/-- The file ends behind the last block in use, or is as it was. -/
theorem shrink_ends {percent : Nat} (h : e.Shows m) (hb : e.occupancy.blockSize = blockSize)
    (hroom : e.occupancy.stop * blockSize * 100 < UInt64.size) :
    Ends (shrink percent) e (fun _ e' => Keeps e m e' ∨
      Keeps e (m.sync.change (.cut (e.occupancy.stop * blockSize))) e')
      (fun f e' => Stops m f e' ∨ Stops m.sync f e') := by
  have hstop := Occupancy.stopPos_eq hb
    (show e.occupancy.stop * blockSize < UInt64.size by omega)
  have hquiet : Keeps e m e := ⟨h, rfl, rfl⟩
  unfold shrink
  rw [ends_bind, ends_get, readOnly_eq h, if_neg Bool.false_ne_true, ends_bind, ends_checked hstop]
  split
  · exact ends_pure.2 (.inl hquiet)
  next hsaves =>
  split
  · exact ends_pure.2 (.inl hquiet)
  rw [ends_bind, ends_checked (word64_of_lt hroom)]
  split
  · exact ends_pure.2 (.inl hquiet)
  refine (sync_ends h).bind (fun _ e₁ k₁ => ?_) fun _ _ => .inl
  rw [ends_bind, onDevice, ends_within]
  rw [size_eq h] at hsaves
  refine (Lawful.truncate_ends k₁.1 (Nat.le_of_not_le hsaves)).mono (fun _ d k₂ => ?_) fun _ _ => .inr
  exact ends_pure.2 (.inr ⟨k₂, k₁.2⟩)

end Engine

end BlockStore
