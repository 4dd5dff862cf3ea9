import BlockStore.Device.File
import BlockStore.Proofs.Allocation

namespace BlockStore

open BlockStore.Action Bytes

namespace Device

inductive Record
  | wrote (pos : Nat) (data : ByteArray)
  /-- The records are stored, and these are the blocks in use. -/
  | stored (used : Bitmap)

/-- A device that writes down what it is asked to write. -/
structure Recorder (δ : Type) where
  inner : δ
  log : List Record := []

/-- What is read is as long as asked for. -/
class Exact (δ : Type) [Device δ] : Prop where
  read_size {d : δ} {pos len : Nat} :
    Ends (Device.read pos len) d (fun data _ => data.size = len) Any

namespace Recorder

variable {δ α : Type}

def note (x : Record) : Action (Recorder δ) Unit := modify fun r => { r with log := r.log ++ [x] }

def pass (act : Action δ α) : Action (Recorder δ) α := .within inner (fun r d => { r with inner := d }) act

instance [Device δ] : Device (Recorder δ) where
  read pos len := pass (Device.read pos len)
  write pos data := do
    note (.wrote pos data)
    pass (Device.write pos data)
  sync := pass Device.sync
  truncate size := pass (Device.truncate size)
  size r := Device.size r.inner
  readOnly r := Device.readOnly r.inner

end Recorder

instance : Exact Memory where
  read_size {m pos len} := by
    change Ends (Memory.read pos len) m _ _
    unfold Memory.read
    rw [ends_bind, ends_get, ends_bind]
    refine ends_of_checked fun stop hstop => ?_
    obtain ⟨-, rfl⟩ := word64_eq_ok.1 hstop
    split
    · exact ends_refuse.2 trivial
    · exact ends_pure.2 (size_slice (by omega))

instance : Exact Disk where
  read_size {d pos len} := by
    change Ends (Disk.read pos len) d _ _
    unfold Disk.read
    rw [ends_bind, ends_get]
    by_cases hpos : d.limit < pos
    · rw [if_pos hpos, ends_bind]
      exact ends_refuse.2 trivial
    rw [if_neg hpos, ends_bind]
    refine ends_of_checked fun _ _ => ?_
    split
    · next hlen => exact ends_pure.2 hlen.symm
    split
    · exact ends_refuse.2 trivial
    · exact ends_pure.2 (d.content.size_slice pos len)

theorem File.run_ends {α : Type} {P : α → Prop} {onMemory : Action Memory α}
    {onDisk : Action Disk α} (hm : ∀ m, Ends onMemory m (fun a _ => P a) Any)
    (hd : ∀ d, Ends onDisk d (fun a _ => P a) Any) (f : File) :
    Ends (File.run onMemory onDisk) f (fun a _ => P a) Any := by
  rw [ends_iff]
  cases f with
  | memory m =>
    have h := ends_iff.1 (hm m)
    rw [File.run]
    rcases hrun : onMemory m with ⟨f | a, t⟩ <;> rwa [hrun] at h
  | disk d =>
    have h := ends_iff.1 (hd d)
    rw [File.run]
    rcases hrun : onDisk d with ⟨f | a, t⟩ <;> rwa [hrun] at h

instance : Exact File where
  read_size := File.run_ends (fun _ => Exact.read_size) (fun _ => Exact.read_size) _

/-- Bytes that begin like a chunk. -/
def IsChunk (data : ByteArray) : Prop := (toList data).take 4 = Frame.headMagic

/-- No chunk is written onto blocks in use, and nothing else behind the header. -/
def Record.Spares (used : Bitmap) : Record → Prop
  | .wrote pos data => ¬IsChunk data ∧ pos + data.size ≤ headerBytes ∨
      ∀ b ∈ used, (b + 1) * blockSize ≤ pos ∨ pos + data.size ≤ b * blockSize
  | .stored _ => False

/-- Up to the next `n` times that the records are stored, writes spare the blocks that were in use
the time before, those of `used` to begin with. -/
def Guarded : Nat → Bitmap → List Record → Prop
  | 0, _, _ => True
  | _ + 1, _, [] => True
  | n + 1, _, .stored next :: log => Guarded n next log
  | n + 1, used, .wrote pos data :: log =>
    (Record.wrote pos data).Spares used ∧ Guarded (n + 1) used log

theorem guarded_append {n : Nat} {used : Bitmap} {log rest : List Record}
    (h : ∀ x ∈ log, x.Spares used) : Guarded (n + 1) used (log ++ rest) ↔ Guarded (n + 1) used rest := by
  induction log with
  | nil => rfl
  | cons x log ih =>
    have hx := h x List.mem_cons_self
    have ih := ih fun y hy => h y (List.mem_cons_of_mem _ hy)
    cases x with
    | wrote pos data => exact ⟨fun hg => ih.1 hg.2, fun hg => ⟨hx, ih.2 hg⟩⟩
    | stored used => exact hx.elim

end Device

namespace Engine

open Device

variable {δ : Type}

/-- The occupancy is now `o`, and `new` has been written down. -/
structure Alters (e : Engine (Recorder δ)) (o : Occupancy) (new : List Record)
    (e' : Engine (Recorder δ)) : Prop where
  occupancy : e'.occupancy = o
  reserved : e'.reserved = e.reserved
  log : e'.device.log = e.device.log ++ new

def Idle (e e' : Engine (Recorder δ)) : Prop := Alters e e.occupancy [] e'

/-- Blocks that an allocation under `r` may take have been taken. -/
def Grants (e : Engine (Recorder δ)) (r : Reserved) (start n : Nat) (new : List Record)
    (e' : Engine (Recorder δ)) : Prop :=
  e.occupancy.Vacant start n ∧ e.occupancy.Outside r start n ∧ ∃ wasteful, Alters e
    { e.occupancy with used := e.occupancy.used.insertRange start (start + n), wasteful } new e'

variable {e e₁ e₂ : Engine (Recorder δ)} {o : Occupancy} {new : List Record} {c : Chunk}
  {r : Reserved} {pos len start n : Nat} {data buf : ByteArray}

theorem Idle.of_eq (ho : e₁.occupancy = e.occupancy) (hr : e₁.reserved = e.reserved)
    (hl : e₁.device.log = e.device.log) : Idle e e₁ := ⟨ho, hr, by rw [hl, List.append_nil]⟩

theorem Idle.log (h : Idle e e₁) : e₁.device.log = e.device.log := by
  rw [Alters.log h, List.append_nil]

theorem Idle.alters (h : Idle e e₁) (h' : Alters e₁ o new e₂) : Alters e o new e₂ :=
  ⟨h'.occupancy, h'.reserved.trans h.reserved, by rw [h'.log, h.log]⟩

theorem Idle.trans (h : Idle e e₁) (h' : Idle e₁ e₂) : Idle e e₂ :=
  h.alters ⟨h'.occupancy.trans h.occupancy, h'.reserved, Alters.log h'⟩

theorem Idle.grants (h : Idle e e₁) (h' : Grants e₁ r start n new e₂) :
    Grants e r start n new e₂ := by
  obtain ⟨hv, ho, w, ha⟩ := h'
  rw [h.occupancy] at hv ho ha
  exact ⟨hv, ho, w, h.alters ha⟩

theorem Alters.trans {new' : List Record} {o' : Occupancy} (h : Alters e o new e₁)
    (h' : Alters e₁ o' new' e₂) : Alters e o' (new ++ new') e₂ :=
  ⟨h'.occupancy, h'.reserved.trans h.reserved, by rw [h'.log, h.log, List.append_assoc]⟩

theorem Grants.alters {new' : List Record} (h : Grants e r start n new e₁)
    (h' : Alters e₁ e₁.occupancy new' e₂) : Grants e r start n (new ++ new') e₂ := by
  obtain ⟨hv, ho, w, ha⟩ := h
  refine ⟨hv, ho, w, ha.trans ?_⟩
  rw [← ha.occupancy]
  exact h'

theorem Grants.idle (h : Grants e r start n new e₁) (h' : Idle e₁ e₂) :
    Grants e r start n new e₂ := by
  have hg := h.alters h'
  rwa [List.append_nil] at hg

theorem acquire_idle : Ends (acquire len) e (fun buf e' => buf.size = len ∧ Idle e e') Any := by
  unfold acquire
  rw [ends_bind, ends_get, ends_bind]
  refine ends_of_checked fun ⟨buf, pool⟩ hbuf => ?_
  obtain ⟨-, -, hbuf⟩ := bind_eq_ok hbuf
  obtain ⟨rfl, rfl⟩ := Prod.mk.inj (Except.ok.inj hbuf)
  rw [ends_bind, ends_modify]
  refine ends_pure.2 ⟨?_, .of_eq rfl rfl rfl⟩
  rw [size_grow, ByteArray.size_extract]
  omega

theorem release_idle : Ends (release buf) e (fun _ e' => Idle e e') Any :=
  ends_modify.2 (.of_eq rfl rfl rfl)

theorem Room.grants {wasteful : List Bool} (h : Room e r start n) :
    Grants e r start n [] (e.taking start n wasteful) :=
  ⟨h.vacant, h.outside, wasteful, rfl, rfl, (List.append_nil _).symm⟩

theorem allocate_grants (hb : e.occupancy.blockSize = blockSize) :
    Ends (allocate (n * blockSize) r) e (fun pos e' => ∃ start, pos = start * blockSize ∧
      pos < UInt64.size ∧ Grants e r start n [] e') Any := by
  refine (allocate_taking hb).mono ?_ fun _ _ hf => hf
  rintro _ _ ⟨start, wasteful, rfl, hroom, rfl⟩
  exact ⟨start, rfl, hroom.lt, hroom.grants⟩

theorem freeChunk_frees (hb : e.occupancy.blockSize = blockSize) :
    Ends (freeChunk c) e (fun _ e' => Alters e
      { e.occupancy with used := e.occupancy.used.eraseRange c.first c.after } [] e') Any := by
  unfold freeChunk free
  rw [ends_bind]
  refine ends_of_checked fun start hstart => ?_
  obtain ⟨-, rfl⟩ := word64_eq_ok.1 hstart
  rw [ends_bind, ends_get, ends_bind]
  refine ends_of_except fun o ho => ?_
  obtain ⟨-, rfl⟩ := Occupancy.of_free hb (by decide) ho
  exact ends_modify.2 ⟨rfl, rfl, (List.append_nil _).symm⟩

variable [Device δ]

theorem write_alters : Ends (write pos data) e
    (fun _ => Alters e e.occupancy [.wrote pos data]) Any := by
  unfold write onDevice
  rw [ends_bind, ends_within]
  change Ends (do Recorder.note (.wrote pos data); Recorder.pass (Device.write pos data)) e.device _ _
  rw [ends_bind, Recorder.note, ends_modify, Recorder.pass, ends_within]
  exact ends_any fun _ _ => ends_modify.2 ⟨rfl, rfl, rfl⟩

theorem sync_idle : Ends sync e (fun _ e' => Idle e e') Any := by
  unfold sync onDevice
  rw [ends_within]
  change Ends (Recorder.pass Device.sync) e.device _ _
  rw [Recorder.pass, ends_within]
  exact ends_any fun _ _ => .of_eq rfl rfl rfl

theorem truncate_idle {size : Nat} :
    Ends (onDevice (Device.truncate size)) e (fun _ e' => Idle e e') Any := by
  unfold onDevice
  rw [ends_within]
  change Ends (Recorder.pass (Device.truncate size)) e.device _ _
  rw [Recorder.pass, ends_within]
  exact ends_any fun _ _ => .of_eq rfl rfl rfl

theorem shrink_idle {percent : Nat} : Ends (shrink percent) e (fun _ e' => Idle e e') Any := by
  have hquiet : Idle e e := .of_eq rfl rfl rfl
  unfold shrink
  rw [ends_bind, ends_get]
  by_cases hro : e.readOnly = true
  · rw [if_pos hro]
    exact ends_pure.2 hquiet
  rw [if_neg hro, ends_bind]
  refine ends_of_checked fun stop _ => ?_
  split
  · exact ends_pure.2 hquiet
  split
  · exact ends_pure.2 hquiet
  rw [ends_bind]
  refine ends_of_checked fun scaled _ => ?_
  split
  · exact ends_pure.2 hquiet
  · refine sync_idle.bind (fun _ e₁ h₁ => ?_) fun _ _ hf => hf
    exact truncate_idle.bind (fun _ e₂ h₂ => ends_pure.2 (h₁.trans h₂)) fun _ _ hf => hf

theorem load_idle [Exact δ] :
    Ends (load c) e (fun a e' => a.2.size = c.byteLen ∧ Idle e e') Any := by
  unfold load read onDevice
  rw [ends_bind]
  refine ends_of_checked fun start hstart => ?_
  rw [ends_bind, ends_bind, ends_within]
  change Ends (Recorder.pass (Device.read start c.byteLen)) e.device _ _
  rw [Recorder.pass, ends_within]
  refine Exact.read_size.mono (fun data d hsize => ?_) fun _ _ hf => hf
  rw [ends_bind, ends_modify, ends_pure, ends_bind]
  exact ends_of_except fun head hhead => ends_pure.2 ⟨hsize, .of_eq rfl rfl rfl⟩

theorem allocateFor_grants (hb : e.occupancy.blockSize = blockSize) :
    Ends (allocateFor c buf) e (fun a e' => a.1.id = c.id ∧ a.2.size = a.1.byteLen ∧
      Grants e e.heldBack a.1.first a.1.len.toNat [] e') Any := by
  refine (allocateFor_taking hb).mono ?_ fun _ _ hf => hf
  rintro ⟨_, framed⟩ _ ⟨⟨⟨block, next, rfl⟩, -, hsize, ⟨payload, -, hframed⟩, hroom⟩, wasteful, rfl⟩
  exact ⟨rfl, (Frame.size_of_write hframed).trans hsize, hroom.grants⟩

theorem writeChunk_alters : Ends (writeChunk c buf) e
    (fun _ => Alters e e.occupancy [.wrote (c.first * blockSize) buf]) Any :=
  writeChunk_of_write write_alters

theorem copy_grants [Exact δ] (hb : e.occupancy.blockSize = blockSize) :
    Ends (copy c r) e (fun moved e' => moved.id = c.id ∧ moved.len = c.len ∧
      ∃ framed, framed.size = c.byteLen ∧ Grants e r moved.first moved.len.toNat
        [.wrote (moved.first * blockSize) framed] e') Any := by
  unfold copy
  refine load_idle.bind ?_ fun _ _ hf => hf
  rintro ⟨head, source⟩ e₁ ⟨hsource, h₁⟩
  dsimp only at hsource ⊢
  refine acquire_idle.bind ?_ fun _ _ hf => hf
  rintro buf e₂ ⟨hbuf, h₂⟩
  have h₂ := h₁.trans h₂
  rw [ends_bind]
  refine ends_of_checked fun framed hframed => ?_
  have hsize : framed.size = c.byteLen := by
    rw [Frame.size_of_write hframed, size_overwrite (by omega), hbuf, hsource]
  refine (allocate_grants (by rw [h₂.occupancy, hb])).bind ?_ fun _ _ hf => hf
  rintro _ e₃ ⟨start, rfl, hlt, h₃⟩
  have h₃ := h₂.grants h₃
  have hstart := toNat_block hlt
  split
  · exact ends_bind.2 (ends_throw.2 trivial)
  · rw [ends_bind]
    refine ends_of_checked fun framed' hframed' => ?_
    have hsize' : framed'.size = c.byteLen := (Frame.size_of_write hframed').trans hsize
    refine write_alters.attempted (fun _ e₄ h₄ => ?_) fun _ _ =>
      ends_bind.2 (ends_any fun _ _ => ends_refusing)
    refine release_idle.bind (fun _ e₅ h₅ => ends_pure.2 ⟨rfl, rfl, framed', hsize', ?_⟩) fun _ _ hf => hf
    rw [Chunk.first, hstart]
    exact (h₃.alters h₄).idle h₅

end Engine

end BlockStore
