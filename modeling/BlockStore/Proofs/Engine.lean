import BlockStore.Engine
import BlockStore.Proofs.Device
import BlockStore.Proofs.Frame
import BlockStore.Proofs.Layout

namespace BlockStore.Engine

open BlockStore.Action Bytes Device

variable {δ : Type}

/-- What the operations of an engine leave alone. -/
structure Mode where
  settings : Settings
  reserved : Reserved
  reuse : Bool

def mode (e : Engine δ) : Mode := ⟨e.settings, e.reserved, e.reuse⟩

theorem acquire_run {e : Engine δ} {len : Nat} (h : len < Bytes.limit) :
    ∃ pool, acquire len e = (.ok (zeros len), { e with pool }) := by
  have hbuf : grow ((e.pool.idle.headD .empty).extract 0 0) len = zeros len := ext_toList (by simp)
  have ha : e.pool.acquire len = .ok (zeros len, { e.pool with idle := e.pool.idle.tail }) := by
    rw [BufferPool.acquire, room_eq_ok.2 h, ← hbuf]
    rfl
  refine ⟨{ e.pool with idle := e.pool.idle.tail }, Ends.eq_run ?_⟩
  unfold acquire
  rw [ends_bind, ends_get, ends_bind, ends_checked ha, ends_bind, ends_modify]
  exact ends_pure.2 ⟨rfl, rfl⟩

variable [Device δ] [Lawful δ] {e : Engine δ} {m : Medium} {c d : Chunk} {p data buf : ByteArray}
  {r : Reserved} {pos len n : Nat}

def Shows (e : Engine δ) (m : Medium) : Prop := Lawful.Shows e.device m

/-- The device stands for `m`; what the engine knows of it is as in `e`. -/
def Keeps (e : Engine δ) (m : Medium) (e' : Engine δ) : Prop :=
  e'.Shows m ∧ e'.occupancy = e.occupancy ∧ e'.mode = e.mode

/-- The engine has taken `n` blocks from `start` on, and what else it knows is as in `e`. -/
def Takes (e : Engine δ) (start n : Nat) (m : Medium) (e' : Engine δ) : Prop :=
  e'.Shows m ∧ e'.mode = e.mode ∧ ∃ wasteful, e'.occupancy =
    { e.occupancy with used := e.occupancy.used.insertRange start (start + n), wasteful }

/-- The device refuses, and the file is `m`. -/
def Stops (m : Medium) : Failure → Engine δ → Prop := fun _ e => Lawful.fails δ ∧ e.Shows m

theorem Keeps.trans {e' e'' : Engine δ} {m' : Medium} (h : Keeps e m e') (h' : Keeps e' m' e'') :
    Keeps e m' e'' := ⟨h'.1, h'.2.1.trans h.2.1, h'.2.2.trans h.2.2⟩

theorem Keeps.takes {e₁ e₂ : Engine δ} {m' : Medium} {start : Nat} (h : Keeps e m e₁)
    (h' : Takes e₁ start n m' e₂) : Takes e start n m' e₂ := by
  obtain ⟨hs, hm, w, ho⟩ := h'
  exact ⟨hs, hm.trans h.2.2, w, by rw [ho, h.2.1]⟩

theorem Takes.keeps {e₁ e₂ : Engine δ} {m' : Medium} {start : Nat} (h : Takes e start n m e₁)
    (h' : Keeps e₁ m' e₂) : Takes e start n m' e₂ := by
  obtain ⟨hs, hm, w, ho⟩ := h
  exact ⟨h'.1, h'.2.2.trans hm, w, by rw [h'.2.1, ho]⟩

theorem readOnly_eq (h : e.Shows m) : e.readOnly = false := Lawful.readOnly_eq h

theorem size_eq (h : e.Shows m) : e.size = m.content.size := Lawful.size_eq h

theorem room_lt : Lawful.room δ < UInt64.size :=
  Nat.lt_of_le_of_lt (Lawful.room_le (δ := δ)) Memory.limit_lt

theorem read_ends (h : e.Shows m) (hle : pos + len ≤ m.content.size) :
    Ends (read pos len) e (fun data e' => data = slice m.content pos len ∧ Keeps e m e')
      fun _ _ => False := by
  unfold read onDevice
  rw [ends_bind, ends_within]
  refine (Lawful.read_ends h hle).mono (fun data t ⟨hd, ht⟩ => ?_) fun _ _ => False.elim
  rw [ends_bind, ends_modify]
  exact ends_pure.2 ⟨hd, ht, rfl, rfl⟩

theorem write_ends (h : e.Shows m) (hd : 0 < data.size) (hroom : pos + data.size < Lawful.room δ) :
    Ends (write pos data) e (fun _ => Keeps e (m.change (.write pos data))) (Stops m) := by
  unfold write onDevice
  rw [ends_bind, ends_within]
  exact (Lawful.write_ends h hd hroom).mono (fun _ t ht => ends_modify.2 ⟨ht, rfl, rfl⟩) fun _ _ => id

theorem sync_ends (h : e.Shows m) : Ends sync e (fun _ => Keeps e m.sync) (Stops m) := by
  unfold sync onDevice
  rw [ends_within]
  exact (Lawful.sync_ends h).mono (fun _ t ht => ⟨ht, rfl, rfl⟩) fun _ _ => id

theorem acquire_ends (h : e.Shows m) (hlen : len < Bytes.limit) :
    Ends (acquire len) e (fun buf e' => buf = zeros len ∧ Keeps e m e') fun _ _ => False := by
  obtain ⟨pool, hrun⟩ := acquire_run (e := e) hlen
  exact .of_run hrun ⟨rfl, h, rfl, rfl⟩

theorem release_ends (h : e.Shows m) :
    Ends (release buf) e (fun _ => Keeps e m) fun _ _ => False :=
  ends_modify.2 ⟨h, rfl, rfl⟩

theorem load_ends (h : e.Shows m) (hd : Holds m.content (d.first * blockSize) (Frame.framed d p))
    (hf : Frame.Fits d p) (hid : c.id = d.id) (hlen : c.len = d.len) (hblock : c.block = d.block) :
    Ends (load c) e (fun a e' => a = (.ofChunk d p.size.toUInt32, Frame.framed d p) ∧ Keeps e m e')
      fun _ _ => False := by
  have hroom := room_lt (δ := δ)
  have hsize := Lawful.size_lt h
  have hbytes : c.byteLen = (Frame.framed d p).size := by
    rw [Frame.size_framed hf, Chunk.byteLen, Chunk.byteLen, hlen]
  have hle := hd.1
  have hfirst : c.first = d.first := congrArg UInt64.toNat hblock
  unfold load
  rw [ends_bind, ends_checked (Chunk.start_eq (by rw [hfirst]; omega)), ends_bind, hfirst, hbytes]
  refine (read_ends h hle).mono ?_ fun _ _ => False.elim
  rintro data t ⟨hdata, ht⟩
  rw [hdata, hd.2, ends_bind, ends_except (Frame.verify_framed hf hid hlen hblock)]
  exact ends_pure.2 ⟨rfl, ht⟩

/-- Whatever comes of it, giving blocks back does not touch the device. -/
theorem free_ends_device (h : e.Shows m) (pos len : Nat) :
    Ends (free pos len) e (fun _ e' => e'.Shows m) fun _ e' => e'.Shows m := by
  unfold free
  rw [ends_bind, ends_get, ends_bind]
  cases e.occupancy.free pos len with
  | error f => exact ends_iff.2 h
  | ok o => exact (ends_except rfl).2 (ends_modify.2 h)

theorem markChunk_ends (h : e.Shows m) (hb : e.occupancy.blockSize = blockSize)
    (hroom : c.after * blockSize < UInt64.size)
    (hv : e.occupancy.Vacant c.first c.len.toNat) :
    Ends (markChunk c) e (fun _ e' => e'.Shows m ∧ e'.mode = e.mode ∧ e'.occupancy =
      { e.occupancy with used := e.occupancy.used.insertRange c.first c.after })
      fun _ _ => False := by
  have ha := c.after_eq
  have hstart : c.first * blockSize < UInt64.size := by simp only [mul_blockSize] at *; omega
  have hstop : c.first + c.len.toNat < UInt64.size := by simp only [mul_blockSize] at *; omega
  have hmark := Occupancy.mark_eq hb (by decide) hstop hv
  unfold markChunk mark
  rw [ends_bind, ends_checked (Chunk.start_eq hstart), ends_bind, ends_get, ends_bind,
    Chunk.byteLen, ends_except hmark]
  exact ends_modify.2 ⟨h, rfl, rfl⟩

theorem freeChunk_ends (h : e.Shows m) {held : List Chunk} (hl : Layout e.occupancy (c :: held))
    (hroom : c.after * blockSize < UInt64.size) :
    Ends (freeChunk c) e (fun _ e' => e'.Shows m ∧ e'.mode = e.mode ∧ e'.occupancy =
      { e.occupancy with used := e.occupancy.used.eraseRange c.first c.after })
      fun _ _ => False := by
  have ha := c.after_eq
  have hh := hl.header_le c List.mem_cons_self
  have hstart : c.first * blockSize < UInt64.size := by simp only [mul_blockSize] at *; omega
  have hstop : c.first + c.len.toNat < UInt64.size := by simp only [mul_blockSize] at *; omega
  have hfree := Occupancy.free_eq hl.blockSize (by decide) hstop
    (by rw [hl.headerBlocks]; exact hh) (hl.filled List.mem_cons_self)
  unfold freeChunk free
  rw [ends_bind, ends_checked (Chunk.start_eq hstart), ends_bind, ends_get, ends_bind,
    Chunk.byteLen, ends_except hfree]
  exact ends_modify.2 ⟨h, rfl, rfl⟩

theorem allocate_ends (h : e.Shows m) (hb : e.occupancy.blockSize = blockSize) (hn : 0 < n)
    (hroom : (e.occupancy.ceiling r + n) * blockSize < Lawful.room δ) {start : Nat}
    (hp : e.occupancy.preview n r = .ok start) :
    Ends (allocate (n * blockSize) r) e (fun pos e' => pos = start * blockSize ∧ Takes e start n m e')
      fun _ _ => False := by
  have hlt := room_lt (δ := δ)
  obtain ⟨wasteful, ha⟩ := Occupancy.allocate_eq hb (by decide) hn (by omega)
    (by simp only [mul_blockSize] at *; omega) hp
  unfold allocate
  rw [ends_bind, ends_get, ends_bind, ends_checked ha, ends_bind, ends_modify]
  exact ends_pure.2 ⟨rfl, h, rfl, wasteful, rfl⟩

end BlockStore.Engine
