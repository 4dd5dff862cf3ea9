import BlockStore.Proofs.Fallible
import BlockStore.Proofs.Lodging
import BlockStore.Proofs.Placement
import BlockStore.Proofs.Verification

namespace BlockStore

open Bytes

/-- The bytes of a framed buffer in the frame of another record. -/
theorem Frame.reframe {buf : ByteArray} {n : UInt32} (h : payloadSize buf = .ok n) (d : Chunk) :
    ∃ out, out.size = buf.size ∧ write buf d n = .ok out ∧ payloadSize out = .ok n ∧
      verify out d = .ok (.ofChunk d n) ∧
      ∀ head head' : Head, head.payload = n → head'.payload = n → payload out head = payload buf head' := by
  obtain ⟨-, -, -, hle⟩ := of_payloadSize h
  have hmid : (middle buf).size = buf.size - Chunk.footSize - Chunk.headSize := by
    rw [middle, ByteArray.size_extract]
    omega
  have hsize : (wrap d n (middle buf)).size = buf.size := by
    rw [size_wrap]
    omega
  refine ⟨_, hsize, write_eq (by omega) .., payloadSize_wrap d (by omega),
    verify_wrap (by omega) rfl rfl rfl, ?_⟩
  rintro head head' rfl hhead'
  rw [payload_eq (by rw [hsize]; exact hle), middle_wrap, payload_eq (by rw [hhead']; exact hle),
    hhead']

namespace Engine

open BlockStore.Action Device

section

variable {δ : Type} {e : Engine δ} {o : Occupancy} {c : Chunk} {r : Reserved} {pos len n start : Nat}

theorem free_run (h : e.occupancy.free pos len = .ok o) :
    free pos len e = (.ok (), { e with occupancy := o }) := by
  refine Ends.eq_run ?_
  unfold free
  rw [ends_bind, ends_get, ends_bind, ends_except h]
  exact ends_modify.2 ⟨rfl, rfl⟩

theorem freeChunk_run {cs : List Chunk} (h : Lodged e.occupancy cs) (hc : c ∈ cs)
    (hroom : c.after * blockSize < UInt64.size) :
    freeChunk c e = (.ok (), { e with occupancy :=
      { e.occupancy with used := e.occupancy.used.eraseRange c.first c.after } }) := by
  have ha := c.after_eq
  have hstart : c.first * blockSize < UInt64.size := by simp only [mul_blockSize] at *; omega
  have hstop : c.first + c.len.toNat < UInt64.size := by simp only [mul_blockSize] at *; omega
  have hfree := Occupancy.free_eq h.blockSize (by decide) hstop
    (by rw [h.headerBlocks]; exact h.header_le c hc) (h.filled c hc)
  refine Ends.eq_run ?_
  unfold freeChunk
  rw [ends_bind, ends_checked (Chunk.start_eq hstart), Chunk.byteLen]
  exact .of_run (free_run hfree) ⟨rfl, rfl⟩

theorem allocate_run (hb : e.occupancy.blockSize = blockSize) (hn : 0 < n)
    (hroom : (e.occupancy.ceiling r + n) * blockSize < UInt64.size)
    (hp : e.occupancy.preview n r = .ok start) :
    ∃ wasteful, allocate (n * blockSize) r e = (.ok (start * blockSize), { e with occupancy :=
      { e.occupancy with used := e.occupancy.used.insertRange start (start + n), wasteful } }) := by
  obtain ⟨wasteful, ha⟩ := Occupancy.allocate_eq hb (by decide) hn (by omega)
    (by simp only [mul_blockSize] at *; omega) hp
  refine ⟨wasteful, Ends.eq_run ?_⟩
  unfold allocate
  rw [ends_bind, ends_get, ends_bind, ends_checked ha, ends_bind, ends_modify]
  exact ends_pure.2 ⟨rfl, rfl⟩

end

variable {δ : Type} [Device δ] [Fallible δ] {e : Engine δ} {b p data : ByteArray} {c : Chunk}
  {cs : List Chunk} {r : Reserved} {pos len start : Nat}

/-- The bytes on the device of the engine. -/
def Has (e : Engine δ) (b : ByteArray) : Prop := Fallible.Has e.device b

/-- The device has `b`; what the engine knows of its blocks is as in `e`. -/
structure Rests (e : Engine δ) (b : ByteArray) (e' : Engine δ) : Prop where
  has : e'.Has b
  occupancy : e'.occupancy = e.occupancy

theorem Rests.trans {e e₁ e₂ : Engine δ} {b b' : ByteArray} (h : e.Rests b e₁) (h' : e₁.Rests b' e₂) :
    e.Rests b' e₂ := ⟨h'.has, h'.occupancy.trans h.occupancy⟩

/-- The device has refused a call and has `b`. -/
def Refused (e : Engine δ) (b : ByteArray) : Failure → Engine δ → Prop :=
  fun f e' => Fallible.refusal δ f ∧ e.Rests b e'

theorem room_lt_word : Fallible.room δ < UInt64.size :=
  Nat.lt_of_le_of_lt (Fallible.room_le (δ := δ)) Memory.limit_lt

theorem readOnly_of_has (h : e.Has b) : e.readOnly = false := Fallible.readOnly_eq h

theorem size_of_has (h : e.Has b) : e.size = b.size := Fallible.size_eq h

theorem read_endures (h : e.Has b) (hle : pos + len ≤ b.size) :
    Ends (read pos len) e (fun data e' => data = slice b pos len ∧ e.Rests b e') (Refused e b) := by
  unfold read onDevice
  rw [ends_bind, ends_within]
  refine (Fallible.read_ends h hle).mono (fun data t ht => ?_) fun f t ht => ⟨ht.1, ht.2, rfl⟩
  rw [ends_bind, ends_modify]
  exact ends_pure.2 ⟨ht.1, ht.2, rfl⟩

theorem write_endures (h : e.Has b) (hd : 0 < data.size)
    (hroom : pos + data.size < Fallible.room δ) : Ends (write pos data) e
      (fun _ => e.Rests (Change.apply b (.write pos data))) (Refused e b) := by
  unfold write onDevice
  rw [ends_bind, ends_within]
  exact (Fallible.write_ends h hd hroom).mono (fun _ t ht => ends_modify.2 ⟨ht, rfl⟩)
    fun f t ht => ⟨ht.1, ht.2, rfl⟩

theorem sync_endures (h : e.Has b) : Ends sync e (fun _ => e.Rests b) (Refused e b) := by
  unfold sync onDevice
  rw [ends_within]
  exact (Fallible.sync_ends h).mono (fun _ t ht => ⟨ht, rfl⟩) fun f t ht => ⟨ht.1, ht.2, rfl⟩

/-- The superblock is written between two syncs. If the device refuses one of the calls, the file has
the old one or the new one. -/
theorem publish_endures {α : Type} (a : α) (last : Action (Engine δ) α) (h : e.Has b)
    (hsize : headerBytes ≤ b.size) (sb : Superblock)
    (hlast : ∀ (t : Engine δ) (b' : ByteArray), t.Has b' →
      Ends last t (fun x u => a = x ∧ t.Rests b' u) (Refused t b')) :
    Ends (do
      sync
      write 0 sb.toBytes
      last) e (fun x u => a = x ∧ e.Rests (Change.apply b (.write 0 sb.toBytes)) u)
      fun f u => Fallible.refusal δ f ∧
        (e.Rests b u ∨ e.Rests (Change.apply b (.write 0 sb.toBytes)) u) := by
  have hlt := Fallible.size_lt h
  refine (sync_endures h).bind (fun _ e₁ h₁ => ?_) fun _ _ hf => ⟨hf.1, .inl hf.2⟩
  have hroom : 0 + sb.toBytes.size < Fallible.room δ := by
    rw [Superblock.size_toBytes]
    omega
  refine (write_endures h₁.has sb.size_toBytes_pos hroom).bind (fun _ e₂ h₂ => ?_)
    fun _ _ hf => ⟨hf.1, .inl (h₁.trans hf.2)⟩
  have h₂ := h₁.trans h₂
  exact (hlast e₂ _ h₂.has).mono (fun _ _ hu => ⟨hu.1, h₂.trans hu.2⟩)
    fun _ _ hf => ⟨hf.1, .inr (h₂.trans hf.2)⟩

theorem load_endures (h : e.Has b) (hs : Seals b c p) :
    Ends (load c) e (fun a e' => a.2.size = c.byteLen ∧ Holds b (c.first * blockSize) a.2 ∧
      Frame.verify a.2 c = .ok a.1 ∧ Frame.payload a.2 a.1 = p ∧ e.Rests b e') (Refused e b) := by
  have hroom := room_lt_word (δ := δ)
  have hsize := Fallible.size_lt h
  obtain ⟨buf, head, hlen, hholds, hverify, hpayload⟩ := hs
  have hle := hholds.1
  unfold load
  rw [ends_bind, ends_checked (Chunk.start_eq (by omega)), ends_bind, ← hlen]
  refine (read_endures h hle).mono ?_ fun _ _ hf => hf
  rintro data e₁ ⟨hdata, h₁⟩
  rw [hdata, hholds.2, ends_bind, ends_except hverify]
  exact ends_pure.2 ⟨rfl, hholds, hverify, hpayload, h₁⟩

/-- What has become of an engine once `c` has a copy at `start`. The blocks it was on stay in use. -/
structure Copied (e : Engine δ) (b : ByteArray) (c : Chunk) (p : ByteArray) (start : Nat)
    (b' : ByteArray) (e' : Engine δ) : Prop where
  has : e'.Has b'
  change : ∃ data, data.size = c.byteLen ∧ b' = Change.apply b (.write (start * blockSize) data)
  sealed : Seals b' (c.movedTo start) p
  occupancy : ∃ wasteful, e'.occupancy = { e.occupancy with
    used := e.occupancy.used.insertRange start (start + c.len.toNat), wasteful }

/-- The device has refused a call and has `b`; no block that was in use has become free. -/
def Spared (e : Engine δ) (b : ByteArray) : Failure → Engine δ → Prop := fun f e' =>
  Fallible.refusal δ f ∧ e'.Has b ∧ e.occupancy.Releases (fun _ => False) e'.occupancy

theorem Refused.spared {f : Failure} {e' : Engine δ} (h : Refused e b f e') : Spared e b f e' :=
  ⟨h.1, h.2.has, h.2.occupancy ▸ .refl _ _⟩

/-- The end of a copy, for which blocks have been taken. They are given back if the device refuses to
write on them. -/
theorem keepCopy_endures {e₁ : Engine δ} {framed : ByteArray} {wasteful : List Bool} (h : e₁.Has b)
    (hl : Lodged e.occupancy cs) (hn : 0 < c.len.toNat) (hv : e.occupancy.Vacant start c.len.toNat)
    (hframed : framed.size = c.byteLen)
    (hroom : (start + c.len.toNat) * blockSize < Fallible.room δ)
    (hocc : e₁.occupancy = { e.occupancy with
      used := e.occupancy.used.insertRange start (start + c.len.toNat), wasteful }) :
    Ends (do
      let written ← (write (start * blockSize) framed).attempt
      release framed
      match written with
      | .ok () => return c.movedTo start
      | .error cause =>
        free (start * blockSize) c.byteLen
        .refuse cause) e₁
      (fun moved e' => moved = c.movedTo start ∧
        e₁.Rests (Change.apply b (.write (start * blockSize) framed)) e') (Spared e b) := by
  have hlt := room_lt_word (δ := δ)
  rw [ends_bind, ends_attempt]
  refine .mono (write_endures (b := b) h ?_ ?_) (fun _ e₂ h₂ => ?_) fun f e₂ h₂ => ?_
  · rw [hframed, Chunk.byteLen, mul_blockSize]
    omega
  · rw [hframed, Chunk.byteLen, ← Nat.add_mul]
    exact hroom
  · rw [ends_bind]
    exact .of_run rfl (ends_pure.2 ⟨rfl, h₂.has, h₂.occupancy⟩)
  · have hocc₂ := h₂.2.occupancy.trans hocc
    cases f with
    | fault f =>
      refine ⟨h₂.1, h₂.2.has, ?_⟩
      rw [hocc₂]
      exact .insert
    | error cause =>
      dsimp only
      rw [ends_bind]
      refine .of_run rfl ?_
      obtain ⟨o, hfree, hreleases⟩ := hl.free_taken hn hv
        (by simp only [mul_blockSize] at *; omega) hocc₂
      dsimp only
      rw [ends_bind]
      exact .of_run (free_run hfree) (ends_refuse.2 ⟨h₂.1, h₂.2.has, hreleases⟩)

/-- A copy goes where the preview says. If the device refuses to take it, the room is given back. -/
theorem copy_endures (h : e.Has b) (hl : Lodged e.occupancy cs) (hs : Seals b c p)
    (hn : 0 < c.len.toNat) (hceil : (e.occupancy.ceiling r + c.len.toNat) * blockSize < UInt64.size)
    (hp : e.occupancy.preview c.len.toNat r = .ok start)
    (hroom : (start + c.len.toNat) * blockSize < Fallible.room δ)
    (hback : r.high = none → start ≤ c.first) :
    Ends (copy c r) e (fun moved e' => moved = c.movedTo start ∧ ∃ b', Copied e b c p start b' e')
      (Spared e b) := by
  have hlt := room_lt_word (δ := δ)
  have hstart : start < UInt64.size := by simp only [mul_blockSize] at *; omega
  have hsize : c.byteLen < Bytes.limit := by
    have := Fallible.room_le (δ := δ)
    simp only [Chunk.byteLen, mul_blockSize] at *
    omega
  have hfirst := c.first_movedTo hstart
  obtain ⟨-, hvacant, -⟩ := Occupancy.of_preview hn (by simp only [mul_blockSize] at *; omega) hp
  have hdiv : (start * blockSize / blockSize).toUInt64 = start.toUInt64 := by
    rw [Nat.mul_div_cancel _ (by decide)]
  unfold copy
  refine (load_endures h hs).bind ?_ fun _ _ hf => hf.spared
  rintro ⟨head, source⟩ e₁ ⟨hlen, -, hverify, hpayload, h₁⟩
  dsimp only at hlen hverify hpayload ⊢
  obtain ⟨_, hpasses⟩ := Frame.passes_of_verify hverify
  obtain ⟨first, hsize₁, hwrite₁, hpayload₁, -, hsame₁⟩ := Frame.reframe hpasses.payloadSize
    { c with block := unsaved, next := 0 }
  obtain ⟨second, hsize₂, hwrite₂, -, hverify₂, hsame₂⟩ := Frame.reframe hpayload₁ (c.movedTo start)
  obtain ⟨pool, hacquire⟩ := acquire_run (e := e₁) (hlen ▸ hsize)
  rw [ends_bind]
  refine .of_run hacquire ?_
  rw [overwrite_zeros, ends_bind, ends_checked hwrite₁, ends_bind]
  obtain ⟨wasteful, hallocate⟩ := allocate_run (e := { e₁ with pool }) (r := r) (n := c.len.toNat)
    (h₁.occupancy ▸ hl.blockSize) hn (h₁.occupancy ▸ hceil) (h₁.occupancy ▸ hp)
  refine .of_run hallocate ?_
  dsimp only
  rw [hdiv, if_neg (not_ahead hfirst hback), ends_bind]
  refine (ends_checked hwrite₂).2 ?_
  have hsecond : second.size = c.byteLen := (hsize₂.trans hsize₁).trans hlen
  have hocc : { e₁.occupancy with
      used := e₁.occupancy.used.insertRange start (start + c.len.toNat), wasteful } =
      { e.occupancy with
        used := e.occupancy.used.insertRange start (start + c.len.toNat), wasteful } := by
    rw [h₁.occupancy]
  refine .mono (keepCopy_endures h₁.has hl hn hvacant hsecond hroom hocc) ?_ fun _ _ hf => hf
  rintro _ e₂ ⟨rfl, h₂⟩
  refine ⟨rfl, _, h₂.has, ⟨second, hsecond, rfl⟩, ?_, wasteful, h₂.occupancy.trans hocc⟩
  refine ⟨second, _, hsecond, ?_, hverify₂, ?_⟩
  · rw [hfirst]
    exact Change.holds_write ..
  · exact (hsame₂ _ head rfl rfl).trans ((hsame₁ head head rfl rfl).trans hpayload)

/-- Whatever `copy` has left of the engine, its old blocks can be given back. -/
theorem Copied.freeChunk_run {b' : ByteArray} {e' : Engine δ} (h : Copied e b c p start b' e')
    (hl : Lodged e.occupancy (c :: cs)) (hroom : c.after * blockSize < UInt64.size) :
    ∃ wasteful, freeChunk c e' = (.ok (), { e' with occupancy := { e.occupancy with
      used := (e.occupancy.used.insertRange start (start + c.len.toNat)).eraseRange c.first c.after
      wasteful } }) := by
  obtain ⟨wasteful, hocc⟩ := h.occupancy
  have hl' : Lodged e'.occupancy (c :: cs) := by
    rw [hocc]
    exact hl.keeps .insert
  exact ⟨wasteful, (Engine.freeChunk_run hl' List.mem_cons_self hroom).trans (by rw [hocc])⟩

/-- What has become of an engine once `c` has moved to `start`. -/
structure Relocates (e : Engine δ) (b : ByteArray) (c : Chunk) (p : ByteArray) (start : Nat)
    (b' : ByteArray) (e' : Engine δ) : Prop where
  has : e'.Has b'
  change : ∃ data, data.size = c.byteLen ∧ b' = Change.apply b (.write (start * blockSize) data)
  sealed : Seals b' (c.movedTo start) p
  occupancy : ∃ wasteful, e'.occupancy = { e.occupancy with
    used := (e.occupancy.used.insertRange start (start + c.len.toNat)).eraseRange c.first c.after
    wasteful }

theorem relocate_endures (h : e.Has b) (hl : Lodged e.occupancy (c :: cs)) (hs : Seals b c p)
    (hceil : (e.occupancy.ceiling r + c.len.toNat) * blockSize < UInt64.size)
    (hp : e.occupancy.preview c.len.toNat r = .ok start)
    (hroom : (start + c.len.toNat) * blockSize < Fallible.room δ)
    (hback : r.high = none → start ≤ c.first) :
    Ends (do
      let moved ← copy c r
      freeChunk c
      return moved) e (fun moved e' => moved = c.movedTo start ∧
        ∃ b', Relocates e b c p start b' e') (Spared e b) := by
  have hn := hl.len_pos c List.mem_cons_self
  have hafter := hs.after_le
  have hlt := room_lt_word (δ := δ)
  have hsize := Fallible.size_lt h
  refine (copy_endures h hl hs hn hceil hp hroom hback).bind ?_ fun _ _ hf => hf
  rintro _ e₁ ⟨rfl, b₁, h₁⟩
  obtain ⟨wasteful, hfree⟩ := h₁.freeChunk_run hl (by omega)
  rw [ends_bind]
  exact .of_run hfree (ends_pure.2 ⟨rfl, b₁, h₁.has, h₁.change, h₁.sealed, wasteful, rfl⟩)

/-- The file ends behind the last block in use, or is as it was. -/
theorem shrink_endures {percent : Nat} (h : e.Has b) (hb : e.occupancy.blockSize = blockSize)
    (hroom : e.occupancy.stop * blockSize * 100 < UInt64.size) :
    Ends (shrink percent) e (fun _ e' => e.Rests b e' ∨
      e.Rests (Change.apply b (.cut (e.occupancy.stop * blockSize))) e') (Refused e b) := by
  have hstop := Occupancy.stopPos_eq hb
    (show e.occupancy.stop * blockSize < UInt64.size by omega)
  have hquiet : e.Rests b e := ⟨h, rfl⟩
  unfold shrink
  rw [ends_bind, ends_get, readOnly_of_has h, if_neg Bool.false_ne_true, ends_bind,
    ends_checked hstop]
  split
  · exact ends_pure.2 (.inl hquiet)
  next hsaves =>
  split
  · exact ends_pure.2 (.inl hquiet)
  rw [ends_bind, ends_checked (word64_of_lt hroom)]
  split
  · exact ends_pure.2 (.inl hquiet)
  refine (sync_endures h).bind (fun _ e₁ h₁ => ?_) fun _ _ hf => hf
  rw [ends_bind, onDevice, ends_within]
  rw [size_of_has h] at hsaves
  exact (Fallible.truncate_ends h₁.has (Nat.le_of_not_le hsaves)).mono (fun _ d hd => ends_pure.2 (.inr ⟨hd, h₁.occupancy⟩))
    fun _ d hd => ⟨hd.1, hd.2, h₁.occupancy⟩

omit [Fallible δ] in
/-- Neither the file nor the blocks in use reach beyond block `n`. -/
theorem appendFrom_le_iff {n : Nat} :
    e.appendFrom ≤ n ↔ e.size ≤ n * blockSize ∧ e.occupancy.stop ≤ n := by
  rw [appendFrom, Nat.max_le]
  refine and_congr_left fun _ => ?_
  simp only [blocksCovering, blockSize]
  omega

end Engine

end BlockStore
