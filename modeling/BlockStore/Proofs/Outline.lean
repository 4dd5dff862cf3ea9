import BlockStore.Proofs.Allocation
import BlockStore.Proofs.Plain

namespace BlockStore

open BlockStore.Action Bytes Device

/-- An engine without its bytes. -/
structure Outline where
  settings : Settings
  reuse : Bool
  reserved : Reserved
  /-- The size of the file. -/
  size : Nat
  occupancy : Occupancy
  deriving DecidableEq

namespace Outline

def appendFrom (o : Outline) : Nat := max (blocksCovering o.size blockSize) o.occupancy.stop

def heldBack (o : Outline) : Reserved :=
  .between o.reserved.low <| match o.reserved.high.filter (0 < ·) with
    | some high => high
    | none => if o.reuse then 0 else o.appendFrom

def write (o : Outline) (pos len : Nat) : Outline := { o with size := max o.size (pos + len) }

/-- Where the next chunk is expected, once a chunk has been placed. -/
def next (o : Outline) (occupancy : Occupancy) (c : Chunk) : Checked Nat :=
  if 0 < o.heldBack.low ∨ o.heldBack.high = some o.heldBack.low then
    occupancy.preview c.len.toNat .nothing
  else pure 0

/-- Finds room for a chunk and writes it there. -/
def settle (o : Outline) (c : Chunk) : Checked (Chunk × Outline) := do
  let (pos, occupancy) ← o.occupancy.allocate c.byteLen o.heldBack
  let next ← o.next occupancy c
  let placed := { c with block := (pos / blockSize).toUInt64, next := next.toUInt64 }
  return (placed, ({ o with occupancy } : Outline).write (placed.first * blockSize) c.byteLen)

/-- Stores a payload of `n` bytes as a new chunk. -/
def place (o : Outline) (c : Chunk) (n : Nat) : Checked (Chunk × Outline) := do
  let len ← Chunk.blocksHolding n
  o.settle { c with len, size := n.toUInt64, liveSize := n.toUInt64 }

theorem id_of_place {o o' : Outline} {c placed : Chunk} {n : Nat}
    (h : o.place c n = .ok (placed, o')) : placed.id = c.id := by
  obtain ⟨len, -, hsettle⟩ := bind_eq_ok h
  obtain ⟨⟨pos, occupancy⟩, -, hnext⟩ := bind_eq_ok hsettle
  obtain ⟨next, -, hplaced⟩ := bind_eq_ok hnext
  cases hplaced
  rfl

def freeChunk (o : Outline) (c : Chunk) : Except Failure Outline := do
  return { o with occupancy := ← o.occupancy.free (← c.start) c.byteLen }

end Outline

namespace Engine

variable {δ : Type} [Device δ] {e : Engine δ} {c : Chunk} {p buf : ByteArray}

def outline (e : Engine δ) : Outline := ⟨e.settings, e.reuse, e.reserved, e.size, e.occupancy⟩

theorem freeChunk_outline (c : Chunk) (e : Engine δ) :
    Ends (freeChunk c) e (fun _ e' => e.outline.freeChunk c = .ok e'.outline) Any := by
  unfold freeChunk free
  rw [ends_bind]
  refine ends_of_checked fun start hstart => ?_
  rw [ends_bind, ends_get, ends_bind]
  refine ends_of_except fun o ho => ends_modify.2 ?_
  unfold Outline.freeChunk
  rw [hstart]
  change (do return { e.outline with occupancy := ← e.occupancy.free start c.byteLen }) = _
  rw [ho]
  rfl

theorem freeAll_outline (cs : List Chunk) (e : Engine δ) : Ends (cs.forM freeChunk) e
    (fun _ e' => cs.foldlM Outline.freeChunk e.outline = .ok e'.outline) Any := by
  induction cs generalizing e with
  | nil => exact ends_pure.2 rfl
  | cons c cs ih =>
    refine (freeChunk_outline c e).bind (fun _ e₁ h₁ => ?_) fun _ _ hf => hf
    refine (ih e₁).mono (fun _ e₂ h₂ => ?_) fun _ _ hf => hf
    rw [List.foldlM_cons, h₁]
    exact h₂

variable [Plain δ]

theorem write_outline (pos : Nat) (data : ByteArray) (e : Engine δ) :
    Ends (write pos data) e (fun _ e' => e'.outline = e.outline.write pos data.size) Any := by
  unfold write onDevice
  rw [ends_bind, ends_within]
  refine (Plain.write_done e.device pos data).mono (fun _ d hd => ends_modify.2 ?_) fun _ _ hf => hf
  have hsize : Device.size d = max (Device.size e.device) (pos + data.size) := by
    rw [Plain.size_eq, Plain.size_eq, hd, Change.size_apply_write]
  rw [outline, size, hsize]
  rfl

theorem sync_outline (e : Engine δ) : Ends sync e (fun _ e' => e'.outline = e.outline) Any := by
  unfold sync onDevice
  rw [ends_within]
  refine (Plain.sync_done e.device).mono (fun _ d hd => ?_) fun _ _ hf => hf
  rw [outline, outline, size, size, Plain.size_eq, hd, ← Plain.size_eq]

omit [Plain δ] in
theorem allocateFor_outline : Ends (allocateFor c buf) e (fun a e' => a.2.size = c.byteLen ∧
    ∃ pos o next, e.occupancy.allocate c.byteLen e.heldBack = .ok (pos, o) ∧
      e.outline.next o c = .ok next ∧
      a.1 = { c with block := (pos / blockSize).toUInt64, next := next.toUInt64 } ∧
      e' = { e with occupancy := o }) Any := by
  unfold allocateFor
  rw [ends_bind, ends_get]
  by_cases hro : e.readOnly = true
  · rw [if_pos hro, ends_bind]
    exact ends_refuse.2 trivial
  rw [if_neg hro]
  by_cases hsize : buf.size ≠ c.byteLen ∨ c.byteLen = 0
  · rw [if_pos hsize, ends_bind]
    exact ends_refuse.2 trivial
  rw [if_neg hsize, ends_bind]
  have hsize : buf.size = c.byteLen := Classical.not_not.1 (not_or.1 hsize).1
  cases hpayload : Frame.payloadSize buf with
  | error f => exact ends_iff.2 trivial
  | ok payload =>
  refine (ends_except rfl).2 ?_
  unfold allocate
  rw [ends_bind, ends_bind, ends_get, ends_bind]
  refine ends_of_checked fun ⟨pos, o⟩ ho => ?_
  rw [ends_bind, ends_modify, ends_pure]
  have hplaced (next : Nat) (hnext : e.outline.next o c = .ok next) : Ends (do
      let placed := { c with block := (pos / blockSize).toUInt64, next := next.toUInt64 }
      let framed ← liftM (Frame.write buf placed payload)
      checkPlaced placed
      return (placed, framed)) { e with occupancy := o } (fun a e' => a.2.size = c.byteLen ∧
        ∃ pos o next, e.occupancy.allocate c.byteLen e.heldBack = .ok (pos, o) ∧
          e.outline.next o c = .ok next ∧
          a.1 = { c with block := (pos / blockSize).toUInt64, next := next.toUInt64 } ∧
          e' = { e with occupancy := o }) Any := by
    rw [ends_bind]
    refine ends_of_checked fun framed hframed => ?_
    refine checkPlaced_eq.bind ?_ fun _ _ hf => hf
    rintro _ _ rfl
    exact ends_pure.2 ⟨(Frame.size_of_write hframed).trans hsize, pos, o, next, ho, hnext, rfl, rfl⟩
  dsimp only
  split
  · next hheld =>
    rw [ends_bind, ends_get, ends_bind]
    exact ends_of_checked fun next hnext => hplaced next ((if_pos hheld).trans hnext)
  · next hheld =>
    rw [ends_bind, ends_pure]
    exact hplaced 0 (if_neg hheld)

theorem settle_outline : Ends (do
    let (placed, framed) ← allocateFor c buf
    writeChunk placed framed
    return placed) e (fun placed e' => e.outline.settle c = .ok (placed, e'.outline)) Any := by
  refine allocateFor_outline.bind ?_ fun _ _ hf => hf
  rintro ⟨placed, framed⟩ _ ⟨hsize, pos, o, next, ho, hnext, rfl, rfl⟩
  dsimp only at hsize ⊢
  refine (writeChunk_of_write (write_outline _ framed _)).bind (fun _ e₂ h₂ => ends_pure.2 ?_)
    fun _ _ hf => hf
  have hallocate : e.outline.occupancy.allocate c.byteLen e.outline.heldBack = .ok (pos, o) := ho
  rw [h₂, hsize, Outline.settle, hallocate]
  change (do let next ← e.outline.next o c; _) = _
  rw [hnext]
  rfl

/-- Where a payload goes is a matter of its size alone. -/
theorem place_outline (c : Chunk) (p : ByteArray) (e : Engine δ) : Ends (place c p) e
    (fun placed e' => e.outline.place c p.size = .ok (placed, e'.outline)) Any := by
  refine place_of_settle (fun _ _ _ h => h) fun len framed pool hlen => ?_
  refine settle_outline.mono (fun placed e' h => ?_) fun _ _ hf => hf
  rw [Outline.place, hlen]
  exact h

end Engine

/-- A store without its bytes. -/
structure Sketch where
  outline : Outline
  records : Catalog
  deriving DecidableEq

namespace Sketch

def write (s : Sketch) (n : Nat) : Checked Sketch := do
  let (c, outline) ← s.outline.place
    { id := s.records.nextId, version := s.records.version + 1 } n
  return ⟨outline, { s.records with
    nextId := s.records.nextId + 1
    data := s.records.data.insert c
    dirty := true }⟩

def remove (s : Sketch) (id : UInt32) : Sketch :=
  match s.records.data.find? id with
  | none => s
  | some c => { s with records := { s.records with
      data := s.records.data.erase id
      removed := s.records.removed ++ [c]
      dirty := true } }

def commit (s : Sketch) : Except Failure Sketch := do
  let (root, outline) ← s.outline.place
    { id := s.records.nextId, version := s.records.version + 1 }
    (Image.headSize + Image.entrySize * s.records.data.size)
  let outline ← (s.records.removed ++ s.records.root.toList).foldlM Outline.freeChunk
    (outline.write 0 headerBytes)
  return ⟨outline, { s.records with
    nextId := s.records.nextId + 1
    root := some root
    removed := []
    version := s.records.version + 1
    dirty := false }⟩

end Sketch

namespace Store

open Engine

variable {δ : Type} [Device δ] {v : Store δ}

def sketch (v : Store δ) : Sketch := ⟨v.engine.outline, v.records⟩

theorem remove_sketch (hwrite : v.engine.readOnly = false) (id : UInt32) :
    Ends (Request.remove id).run v (fun reply w => (∃ outcome, reply = .removed outcome) ∧
      w.sketch = v.sketch.remove id) Any := by
  unfold Request.run Store.remove guardWritable
  rw [ends_bind, ends_attempt, ends_bind, ends_bind, ends_get, hwrite, if_neg Bool.false_ne_true,
    ends_pure, ends_bind, ends_get]
  unfold Sketch.remove
  cases hfind : v.records.data.find? id with
  | none =>
    refine ends_refuse.2 (ends_pure.2 ⟨⟨_, rfl⟩, ?_⟩)
    simp only [sketch, hfind]
  | some c =>
    refine ends_modify.2 (ends_pure.2 ⟨⟨_, rfl⟩, ?_⟩)
    simp only [sketch, hfind]

variable [Plain δ]

/-- What a write does but for the bytes depends on the size of the payload alone. -/
theorem write_sketch (payload : ByteArray) (v : Store δ) :
    Ends (write payload) v (fun c w => c.id = v.records.nextId ∧
      v.sketch.write payload.size = .ok w.sketch) Any := by
  refine write_of_place (fun _ => trivial) (fun _ => trivial) (fun _ _ => trivial) fun _ _ _ => ?_
  refine (place_outline _ payload v.engine).mono (fun c e h => ⟨Outline.id_of_place h, ?_⟩)
    fun _ _ hf => hf
  unfold Sketch.write sketch
  rw [h]
  rfl

theorem commit_sketch (v : Store δ) :
    Ends commit v (fun _ w => v.sketch.commit = .ok w.sketch) Any := by
  refine commit_of_root (fun _ => trivial) (fun _ => trivial) (fun _ _ => trivial) fun _ _ _ => ?_
  refine (place_outline _ _ v.engine).bind (fun root e₁ h₁ => ?_) fun _ _ hf => hf
  refine (sync_outline e₁).bind (fun _ e₂ h₂ => ?_) fun _ _ hf => hf
  refine (write_outline 0 _ e₂).bind (fun _ e₃ h₃ => ?_) fun _ _ hf => hf
  refine (sync_outline e₃).bind (fun _ e₄ h₄ => ?_) fun _ _ hf => hf
  have houtline : e₄.outline = e₁.outline.write 0 headerBytes := by
    rw [h₄, h₃, h₂, Superblock.size_toBytes]
  unfold adoptRoot
  rw [ends_pure, ends_bind, ends_modify, ends_bind, Volume.onEngine, ends_within]
  refine (freeAll_outline _ e₄).mono (fun _ e₅ h₅ => ends_pure.2 ?_) fun _ _ hf => hf
  have hbytes : v.records.nextBytes.size = Image.headSize + Image.entrySize * v.records.data.size := by
    rw [Catalog.nextBytes, size_ofList, Image.length_toBytes]
    rfl
  rw [hbytes] at h₁
  rw [houtline] at h₅
  unfold Sketch.commit sketch
  rw [h₁, liftM_ok]
  change (List.foldlM Outline.freeChunk _ _ : Except Failure Outline) >>= _ = _
  rw [h₅]
  rfl

end Store

end BlockStore
