import BlockStore.Proofs.Allocation
import BlockStore.Proofs.Inventory

namespace BlockStore

open BlockStore.Action Bytes Device

namespace Engine

section

variable {δ : Type} {e : Engine δ} {c : Chunk} {buf : ByteArray} {n : UInt32} {start k : Nat}
  {wasteful : List Bool}

theorem filled_taking : (e.taking start k wasteful).occupancy.Filled start k :=
  fun _ h1 h2 => Bitmap.mem_insertRange.2 (.inr ⟨h1, h2⟩)

theorem stop_taking_le (e : Engine δ) (start k : Nat) (wasteful : List Bool) : (e.taking start k wasteful).occupancy.stop ≤
    max e.occupancy.stop (start + k) := by
  refine Occupancy.stop_le fun b hb => ?_
  rcases Bitmap.mem_insertRange.1 hb with hb | hb
  · have := Occupancy.lt_stop hb
    omega
  · omega

theorem checkPlaced_run (hb : e.occupancy.blockSize = blockSize) (hn : 0 < c.len.toNat)
    (hf : e.occupancy.Filled c.first c.len.toNat) (hroom : c.after * blockSize < UInt64.size) :
    checkPlaced c e = (.ok (), e) := by
  obtain ⟨⟨⟩, _, hrun, rfl⟩ := (checkPlaced_ends hb hn hf hroom).total
  exact hrun

/-- Once a chunk has its blocks it is framed and checked without fail. -/
theorem framedAt_run (hb : e.occupancy.blockSize = blockSize) (wasteful : List Bool)
    (hn : 0 < c.len.toNat) (hp : Frame.payloadSize buf = .ok n)
    (hroom : c.after * blockSize < UInt64.size) :
    ∃ out, Frame.write buf c n = .ok out ∧ (do
      let framed ← liftM (Frame.write buf c n)
      checkPlaced c
      return (c, framed) : Action (Engine δ) _) (e.taking c.first c.len.toNat wasteful) =
        (.ok (c, out), e.taking c.first c.len.toNat wasteful) := by
  obtain ⟨out, -, hwrite, -⟩ := Frame.reframe hp c
  refine ⟨out, hwrite, Ends.eq_run ?_⟩
  rw [ends_bind, ends_checked hwrite, ends_bind]
  exact .of_run (checkPlaced_run hb hn filled_taking hroom) (ends_pure.2 ⟨rfl, rfl⟩)

end

section

variable {δ : Type} [Device δ] {e : Engine δ} {c : Chunk} {buf : ByteArray} {n : UInt32}

/-- No new chunk is placed above this block. -/
theorem ceiling_heldBack_le (e : Engine δ) :
    e.occupancy.ceiling e.heldBack ≤ max e.appendFrom (e.reserved.high.getD 0) := by
  have hstop : e.occupancy.stop ≤ e.appendFrom := Nat.le_max_right _ _
  refine Nat.max_le.2 ⟨by omega, ?_⟩
  rw [heldBack, Reserved.between, Option.getD_some]
  split
  · next high hh =>
    rw [(Option.filter_eq_some_iff.1 hh).1]
    exact Nat.le_max_right _ _
  · split
    · exact Nat.zero_le _
    · exact Nat.le_max_left _ _

/-- A new chunk gets blocks that were free. -/
theorem allocateFor_run (hw : e.readOnly = false) (hb : e.occupancy.blockSize = blockSize)
    (hsize : buf.size = c.byteLen) (hn : 0 < c.len.toNat) (hp : Frame.payloadSize buf = .ok n)
    (hroom : (e.occupancy.ceiling e.heldBack + c.len.toNat) * blockSize < UInt64.size) :
    ∃ (placed : Chunk) (start : Nat) (wasteful : List Bool) (out : ByteArray),
      placed = { c with block := placed.block, next := placed.next } ∧ placed.first = start ∧
      e.occupancy.Vacant start c.len.toNat ∧ start ≤ e.occupancy.ceiling e.heldBack ∧
      Frame.write buf placed n = .ok out ∧
      allocateFor c buf e = (.ok (placed, out), e.taking start c.len.toNat wasteful) := by
  have hbytes : c.byteLen = c.len.toNat * blockSize := rfl
  have hstop : e.occupancy.stop ≤ e.occupancy.ceiling e.heldBack := Nat.le_max_left _ _
  obtain ⟨start, hpreview, hle, hvacant, -⟩ := Occupancy.preview_spec (o := e.occupancy)
    (r := e.heldBack) hn (by simp only [mul_blockSize] at *; omega)
  have hdiv : (start * blockSize / blockSize).toUInt64 = start.toUInt64 := by
    rw [Nat.mul_div_cancel _ (by decide)]
  have hfirst : start.toUInt64.toNat = start :=
    UInt64.toNat_ofNat_of_lt' (by simp only [mul_blockSize] at *; omega)
  obtain ⟨wasteful, hallocate⟩ := allocate_run (e := e) (r := e.heldBack) hb hn hroom hpreview
  -- What is expected of the next chunk makes no difference.
  have hplaced (next : UInt64) : ∃ out,
      Frame.write buf { c with block := start.toUInt64, next } n = .ok out ∧ (do
        let framed ← liftM (Frame.write buf { c with block := start.toUInt64, next } n)
        checkPlaced { c with block := start.toUInt64, next }
        return (({ c with block := start.toUInt64, next } : Chunk), framed) : Action (Engine δ) _)
          (e.taking start c.len.toNat wasteful) =
        (.ok ({ c with block := start.toUInt64, next }, out),
          e.taking start c.len.toNat wasteful) := by
    have hlt : Chunk.after { c with block := start.toUInt64, next } * blockSize < UInt64.size := by
      rw [Chunk.after_eq, Chunk.first, hfirst]
      simp only [mul_blockSize] at *
      omega
    have hrun := framedAt_run (c := { c with block := start.toUInt64, next }) hb wasteful hn hp hlt
    rwa [Chunk.first, hfirst] at hrun
  have hends : Ends (allocateFor c buf) e (fun a e' => ∃ next out,
      Frame.write buf { c with block := start.toUInt64, next } n = .ok out ∧
      a = ({ c with block := start.toUInt64, next }, out) ∧
      e' = e.taking start c.len.toNat wasteful) fun _ _ => False := by
    have hfinish (next : UInt64) := (hplaced next).elim fun out h =>
      Ends.of_run (Q := fun a e' => ∃ next out,
        Frame.write buf { c with block := start.toUInt64, next } n = .ok out ∧
        a = (({ c with block := start.toUInt64, next } : Chunk), out) ∧
        e' = e.taking start c.len.toNat wasteful) (E := fun _ _ => False) h.2
        ⟨next, out, h.1, rfl, rfl⟩
    unfold allocateFor
    rw [ends_bind, ends_get, hw, if_neg (by decide), hsize,
      if_neg (by rw [hbytes, mul_blockSize]; omega), ends_bind]
    refine (ends_except (congrArg (Except.mapError _) hp)).2 ?_
    rw [ends_bind]
    refine .of_run hallocate ?_
    rw [hdiv]
    dsimp only
    split
    · have hstop' := stop_taking_le e start c.len.toNat wasteful
      obtain ⟨next, hnext, -⟩ := Occupancy.preview_spec
        (o := (e.taking start c.len.toNat wasteful).occupancy) (r := .nothing) hn (by
          simp only [Occupancy.ceiling, Reserved.nothing, Option.getD_some] at *
          simp only [mul_blockSize] at *
          omega)
      rw [ends_bind, ends_get, ends_bind]
      exact (ends_checked hnext).2 (hfinish _)
    · rw [ends_bind, ends_pure]
      exact hfinish _
  obtain ⟨_, _, hrun, next, out, hwrite, rfl, rfl⟩ := hends.total
  exact ⟨{ c with block := start.toUInt64, next }, start, wasteful, out, rfl, hfirst, hvacant, hle,
    hwrite, hrun⟩

/-- Just the blocks of `e` are in use, on whatever device. -/
structure Returned {τ : Type} (e : Engine δ) (e' : Engine τ) : Prop where
  mode : e'.mode = e.mode
  shape : e'.occupancy.headerBlocks = e.occupancy.headerBlocks ∧
    e'.occupancy.blockSize = e.occupancy.blockSize
  used : ∀ k, k ∈ e'.occupancy.used ↔ k ∈ e.occupancy.used

variable {A : Prop} {F : Failure → δ → Prop}

/-- Blocks that were taken for a write are given back when the device answers with an error. -/
theorem writeChunk_returns {cs : List Chunk} {wasteful : List Bool} (hl : Lodged e.occupancy cs)
    (hn : 0 < c.len.toNat) (hv : e.occupancy.Vacant c.first c.len.toNat)
    (hroom : c.after * blockSize < UInt64.size)
    (hwrite : Ends (Device.write (c.first * blockSize) buf) e.device (fun _ _ => A) F) :
    Ends (writeChunk c buf) (e.taking c.first c.len.toNat wasteful) (fun _ _ => A)
      fun f e' => F f e'.device ∧ ∀ err, f = .error err → Returned e e' := by
  have hafter := c.after_eq
  have hstart := Chunk.start_eq (c := c) (by simp only [mul_blockSize] at *; omega)
  have hl₁ : Lodged (e.taking c.first c.len.toNat wasteful).occupancy (c :: cs) :=
    hl.add hn hv .insert filled_taking
  unfold writeChunk
  rw [ends_bind, ends_checked hstart, ends_bind, ends_attempt, Engine.write, ends_bind, onDevice,
    ends_within]
  refine hwrite.mono (fun _ _ ha => ends_modify.2 (ends_pure.2 ha)) fun f d hf => ?_
  cases f with
  | fault f =>
    refine ⟨hf, fun _ he => ?_⟩
    cases he
  | error cause =>
    dsimp only
    rw [ends_bind]
    have hfree := freeChunk_run (e := { e.taking c.first c.len.toNat wasteful with device := d }) hl₁
      List.mem_cons_self hroom
    refine .of_run hfree (ends_refuse.2 ⟨hf, fun _ _ => ⟨rfl, ⟨rfl, rfl⟩, fun k => ?_⟩⟩)
    rw [Bitmap.mem_eraseRange]
    constructor
    · rintro ⟨hk, hout⟩
      exact (Bitmap.mem_insertRange.1 hk).resolve_right (hafter ▸ hout)
    · intro hk
      exact ⟨Bitmap.mem_insertRange.2 (.inl hk), fun hin => hv k hin.1 (hafter ▸ hin.2) hk⟩

/-- A payload takes no room if the device answers the write with an error. Only free blocks are
written to. -/
theorem place_returns {cs : List Chunk} {p : ByteArray} (hw : e.readOnly = false)
    (hl : Lodged e.occupancy cs) (hp : p.size < UInt32.size)
    (hroom : (e.occupancy.ceiling e.heldBack + Chunk.blocksFor p.size) * blockSize < UInt64.size)
    (hwrite : ∀ start data, start ≤ e.occupancy.ceiling e.heldBack →
      e.occupancy.Vacant start (Chunk.blocksFor p.size) →
      data.size = Chunk.blocksFor p.size * blockSize →
      Ends (Device.write (start * blockSize) data) e.device (fun _ _ => A) F) :
    Ends (place c p) e (fun _ _ => A)
      fun f e' => F f e'.device ∧ ∀ err, f = .error err → Returned e e' := by
  obtain ⟨hpos, -, -⟩ := Chunk.blocksFor_bounds hp
  have hlen := Chunk.len_holding c hp
  have hf := Chunk.fits_holding c hp
  refine place_of_framed hp (fun _ _ _ h => h)
    (fun _ _ _ ⟨hf, h⟩ => ⟨hf, fun err he => ⟨(h err he).mode, (h err he).shape, (h err he).used⟩⟩)
    fun pool => ?_
  obtain ⟨placed, start, wasteful, out, hplaced, rfl, hvacant, hle, hwritten, hallocate⟩ :=
    allocateFor_run (e := { e with pool }) hw hl.blockSize (Frame.size_framed hf) (hlen ▸ hpos)
      (Frame.payloadSize_framed hf) (hlen ▸ hroom)
  have hlen' : placed.len.toNat = Chunk.blocksFor p.size := by rw [hplaced, ← hlen]
  rw [hlen, ← hlen'] at hallocate hvacant
  rw [ends_bind]
  refine .of_run hallocate ?_
  dsimp only
  rw [ends_bind]
  refine (writeChunk_returns (e := { e with pool }) hl (hlen' ▸ hpos) hvacant ?_
    (hwrite _ _ hle (hlen' ▸ hvacant) ?_)).mono (fun _ _ ha => ends_pure.2 ha) fun _ _ ⟨hf, h⟩ =>
      ⟨hf, fun err he => ⟨(h err he).mode, (h err he).shape, (h err he).used⟩⟩
  · refine Nat.lt_of_le_of_lt (Nat.mul_le_mul_right _ ?_) hroom
    rw [Chunk.after_eq, hlen']
    exact Nat.add_le_add_right hle _
  · rw [Frame.size_of_write hwritten, Frame.size_framed hf, Chunk.byteLen, hlen]

end

end Engine

namespace Site

open Engine

variable {δ : Type} [Device δ] [Fallible δ] {s : Site δ} {c : Chunk} {p buf : ByteArray}
  {n : UInt32} {start : Nat} {wasteful : List Bool}

/-- The site with one more run of blocks that no chunk of the records uses. -/
def lending (s : Site δ) (e : Engine δ) (b : ByteArray) (loose : List Chunk) : Site δ :=
  ⟨e, b, { s.inventory with loose }⟩

theorem Sound.take (wasteful : List Bool) (hs : s.Sound) (hfirst : c.first = start) (hn : 0 < c.len.toNat)
    (hv : s.engine.occupancy.Vacant start c.len.toNat) :
    Step s (s.lending (s.engine.taking start c.len.toNat wasteful) s.bytes
      (c :: s.inventory.loose)) := by
  subst hfirst
  exact .take hs.has hn hv .insert filled_taking

/-- Loose blocks are written to, and given back if the device refuses. -/
theorem Sound.writeChunk_endures {rest : List Chunk} (hs : s.Sound)
    (hloose : s.inventory.loose = c :: rest) (hn : 0 < c.len.toNat) (hsize : buf.size = c.byteLen)
    (hroom : c.after * blockSize < Fallible.room δ) :
    Ends (writeChunk c buf) s.engine
      (fun _ e => s.engine.Rests (Change.apply s.bytes (.write (c.first * blockSize) buf)) e)
      fun f e => Fallible.refusal δ f ∧ ∃ loose, rest.Sublist loose ∧
        Step s (s.lending e s.bytes loose) := by
  have hlt := room_lt_word (δ := δ)
  have hafter := c.after_eq
  have hstart := Chunk.start_eq (c := c) (by simp only [mul_blockSize] at *; omega)
  have hl : Lodged s.engine.occupancy (c :: (s.inventory.chunks ++ rest)) := by
    have h := hs.lodged
    rw [Inventory.held, hloose] at h
    exact h.perm List.perm_middle
  unfold writeChunk
  rw [ends_bind, ends_checked hstart, ends_bind, ends_attempt]
  have hpos : 0 < buf.size := by
    rw [hsize, Chunk.byteLen, mul_blockSize]
    omega
  refine (write_endures hs.has hpos ?_).mono (fun _ e he => ends_pure.2 he) fun f e he => ?_
  · rw [hsize, Chunk.byteLen, ← Nat.add_mul]
    exact hroom
  have hstays : Step s (s.lending e s.bytes (c :: rest)) := by
    rw [lending, ← hloose]
    exact .idle he.2
  cases f with
  | fault f => exact ⟨he.1, _, List.sublist_cons_self _ _, hstays⟩
  | error cause =>
    dsimp only
    rw [ends_bind]
    have hfree := freeChunk_run (e := e) (he.2.occupancy ▸ hl) List.mem_cons_self (by omega)
    refine .of_run hfree (ends_refuse.2 ⟨he.1, rest, .refl _, ?_⟩)
    refine .free (c := c) (by rw [hloose]) he.2.has ?_
    rw [he.2.occupancy]
    exact .erase

/-- A framed chunk goes to blocks that were free. They are loose blocks from then on. -/
theorem Sound.settle_endures (hs : s.Sound) (hsize : buf.size = c.byteLen) (hn : 0 < c.len.toNat)
    (hp : Frame.payloadSize buf = .ok n)
    (hroom : (s.engine.occupancy.ceiling s.engine.heldBack + c.len.toNat) * blockSize <
      Fallible.room δ) :
    Ends (do
      let (placed, framed) ← allocateFor c buf
      writeChunk placed framed
      return placed) s.engine (fun placed e =>
        placed = { c with block := placed.block, next := placed.next } ∧
        e.appendFrom ≤ max s.engine.appendFrom
          (s.engine.occupancy.ceiling s.engine.heldBack + c.len.toNat) ∧
        ∃ b, (∀ head : Frame.Head, head.payload = n → Seals b placed (Frame.payload buf head)) ∧
          Superblock.Kept s.bytes b ∧ Steps s (s.lending e b (placed :: s.inventory.loose)))
      fun f e => Fallible.refusal δ f ∧ ∃ loose, s.inventory.loose.Sublist loose ∧
        Steps s (s.lending e s.bytes loose) := by
  obtain ⟨placed, start, wasteful, out, hplaced, hfirst, hvacant, hle, hwrite, hallocate⟩ :=
    allocateFor_run (readOnly_of_has hs.has) hs.lodged.blockSize hsize hn hp
      (Nat.lt_trans hroom room_lt_word)
  obtain ⟨out', hsize', hwrite', -, hverify, hpayload⟩ := Frame.reframe hp placed
  obtain rfl : out' = out := Except.ok.inj (hwrite'.symm.trans hwrite)
  have hlen : placed.len = c.len := by rw [hplaced]
  have hbytes : out'.size = placed.byteLen := by
    rw [hsize', hsize, Chunk.byteLen, Chunk.byteLen, hlen]
  have hafter : placed.after ≤ s.engine.occupancy.ceiling s.engine.heldBack + c.len.toNat := by
    rw [Chunk.after_eq, hfirst, hlen]
    exact Nat.add_le_add_right hle _
  have htake := hs.take wasteful hfirst (hlen ▸ hn) (hlen ▸ hvacant)
  rw [hlen] at htake
  have hsound := htake.sound hs
  have hapart := (hsound.lodged.perm List.perm_middle).apart
  rw [ends_bind]
  refine .of_run hallocate ?_
  dsimp only
  rw [ends_bind]
  refine (hsound.writeChunk_endures rfl (hlen ▸ hn) hbytes ?_).mono (fun _ e he => ends_pure.2 ?_) fun f e he => ?_
  · exact Nat.lt_of_le_of_lt (Nat.mul_le_mul_right _ hafter) hroom
  · refine ⟨hplaced, ?_, Change.apply s.bytes (.write (placed.first * blockSize) out'),
      fun head hhead => ⟨out', _, hbytes, Change.holds_write .., hverify, hpayload _ _ rfl hhead⟩,
      Superblock.kept_of_write ?_, ?_⟩
    · have hv := appendFrom_le_iff.1 (Nat.le_refl s.engine.appendFrom)
      have hstop := stop_taking_le s.engine start c.len.toNat wasteful
      rw [size_of_has hs.has] at hv
      rw [appendFrom_le_iff, size_of_has he.has, Change.size_apply_write, hbytes, Chunk.byteLen,
        ← Nat.add_mul, ← Chunk.after_eq, he.occupancy]
      simp only [lending, mul_blockSize] at *
      omega
    · exact hsound.lodged.header_le placed (List.mem_append_right _ List.mem_cons_self)
    · refine (Relation.ReflTransGen.single htake).tail (.of_rests he fun d hd => ?_)
      exact Chunk.kept_of_spares (((List.pairwise_cons.1 hapart).1 d
        (List.mem_append_left _ hd)).spares_write hbytes)
  · obtain ⟨hf, loose, hsub, hstep⟩ := he
    exact ⟨hf, loose, hsub, (Relation.ReflTransGen.single htake).tail hstep⟩

/-- A payload finds a place among the loose blocks. -/
theorem Sound.place_endures (hs : s.Sound) (hp : p.size < UInt32.size)
    (hroom : (s.engine.occupancy.ceiling s.engine.heldBack + Chunk.blocksFor p.size) * blockSize <
      Fallible.room δ) :
    Ends (place c p) s.engine (fun placed e =>
        placed = { c.holding p with block := placed.block, next := placed.next } ∧
        e.appendFrom ≤ max s.engine.appendFrom
          (s.engine.occupancy.ceiling s.engine.heldBack + Chunk.blocksFor p.size) ∧
        ∃ b, Seals b placed p ∧ Superblock.Kept s.bytes b ∧
          Steps s (s.lending e b (placed :: s.inventory.loose)))
      fun f e => Fallible.refusal δ f ∧ ∃ loose, s.inventory.loose.Sublist loose ∧
        Steps s (s.lending e s.bytes loose) := by
  obtain ⟨hpos, -, -⟩ := Chunk.blocksFor_bounds hp
  have hlen := Chunk.len_holding c hp
  have hf := Chunk.fits_holding c hp
  have hwork {e : Engine δ} {b : ByteArray} {loose : List Chunk} (pool : BufferPool)
      (h : Steps s (s.lending e b loose)) : Steps s (s.lending { e with pool } b loose) :=
    h.tail (.work (Steps.sound hs h).has (fun _ _ _ _ hb => hb) (.refl _ _))
  refine place_of_framed hp ?_ ?_ fun pool => ?_
  · rintro placed e pool ⟨hplaced, happend, b, hq, hkept, hsteps⟩
    exact ⟨hplaced, happend, b, hq, hkept, hwork pool hsteps⟩
  · rintro f e pool ⟨hf', loose, hsub, hsteps⟩
    exact ⟨hf', loose, hsub, hwork pool hsteps⟩
  have hfirst : Steps s (s.lending { s.engine with pool } s.bytes s.inventory.loose) :=
    hwork pool .refl
  refine ((Steps.sound hs hfirst).settle_endures (Frame.size_framed hf) (hlen ▸ hpos)
    (Frame.payloadSize_framed hf) (hlen ▸ hroom)).mono ?_ ?_
  · rintro placed e ⟨hplaced, happend, b, hq, hkept, hsteps⟩
    have hq := hq (.ofChunk (c.holding p) p.size.toUInt32) rfl
    rw [Frame.payload_framed hf] at hq
    exact ⟨hplaced, hlen ▸ happend, b, hq, hkept, hfirst.trans hsteps⟩
  · rintro f e ⟨hf', loose, hsub, hsteps⟩
    exact ⟨hf', loose, hsub, hfirst.trans hsteps⟩

/-- Loose blocks are given back. -/
theorem Sound.freeAll_endures {gone rest : List Chunk} (hs : s.Sound)
    (hloose : s.inventory.loose.Perm (gone ++ rest))
    (hroom : s.engine.appendFrom * blockSize < UInt64.size) :
    Ends (gone.forM freeChunk) s.engine (fun _ e => e.appendFrom ≤ s.engine.appendFrom ∧
      ∃ loose, loose.Perm rest ∧ Steps s (s.lending e s.bytes loose)) fun _ _ => False := by
  refine ends_forM (I := fun todo e => e.appendFrom ≤ s.engine.appendFrom ∧
    ∃ loose, loose.Perm (todo ++ rest) ∧ Steps s (s.lending e s.bytes loose))
    ⟨Nat.le_refl _, _, hloose, .refl⟩ ?_
  rintro c todo e ⟨happend, loose, hperm, hsteps⟩
  have hsound := Steps.sound hs hsteps
  have hl : Lodged e.occupancy (c :: (s.inventory.chunks ++ (todo ++ rest))) :=
    hsound.lodged.perm ((hperm.append_left _).trans List.perm_middle)
  have hafter := hl.after_le_stop List.mem_cons_self
  have hstop : e.occupancy.stop ≤ e.appendFrom := Nat.le_max_right _ _
  have hfree := freeChunk_run hl List.mem_cons_self (by simp only [mul_blockSize] at *; omega)
  refine .of_run hfree ⟨?_, todo ++ rest, .refl _, hsteps.tail (.free hperm hsound.has .erase)⟩
  refine Nat.le_trans (Nat.max_le.2 ⟨Nat.le_max_left _ _, ?_⟩) happend
  exact Nat.le_trans (Occupancy.stop_le fun b hb =>
    Occupancy.lt_stop (Bitmap.mem_eraseRange.1 hb).1) hstop

/-- A file with a chunk in it has room for the superblock. -/
theorem Sound.headerBytes_le (hs : s.Sound) (hc : c ∈ s.inventory.held) (hp : Seals s.bytes c p) :
    headerBytes ≤ s.bytes.size := by
  have hend := hp.after_le
  have hfirst := hs.lodged.header_le c hc
  rw [Chunk.after_eq] at hend
  rw [headerBytes]
  simp only [mul_blockSize] at *
  omega

/-- The superblock lies before the chunks. -/
theorem Sound.published {e : Engine δ} (hs : s.Sound) (hsize : headerBytes ≤ s.bytes.size)
    {sb : Superblock} (h : s.engine.Rests (Change.apply s.bytes (.write 0 sb.toBytes)) e) :
    e.appendFrom = s.engine.appendFrom ∧
      Step s ⟨e, Change.apply s.bytes (.write 0 sb.toBytes), s.inventory⟩ := by
  refine ⟨?_, .of_rests h fun c hc => Chunk.kept_of_spares (Chunk.spares_header
    (hs.lodged.header_le c (Inventory.mem_held_of_chunks hc)) sb)⟩
  have hgrow : (Change.apply s.bytes (.write 0 sb.toBytes)).size = s.bytes.size := by
    rw [Change.size_apply_write, Superblock.size_toBytes]
    omega
  rw [appendFrom, appendFrom, size_of_has h.has, size_of_has hs.has, h.occupancy, hgrow]

end Site

end BlockStore
