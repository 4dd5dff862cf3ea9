import BlockStore.Device.File
import BlockStore.Proofs.Fallible
import BlockStore.Proofs.Recovery
import BlockStore.Proofs.Verification

namespace BlockStore

open BlockStore.Action Bytes

namespace Sparse

/-- A range within the first `n` bytes is that range of them. -/
theorem slice_slice {s : Sparse} {pos len n : Nat} (h : pos + len ≤ n) :
    s.slice pos len = Bytes.slice (s.slice 0 n) pos len := by
  have hn := s.size_slice 0 n
  have hs : (Bytes.slice (s.slice 0 n) pos len).size = len := Bytes.size_slice (by omega)
  apply ByteArray.ext_getElem
  · rw [s.size_slice, hs]
  · intro i hi hi'
    rw [s.size_slice] at hi
    rw [getElem_slice]
    simp only [Bytes.slice, ByteArray.getElem_extract, getElem_slice, Nat.zero_add]

end Sparse

namespace Device

/-- A device that can be read: a range of the file comes whole, and any other is refused. -/
class Legible (δ : Type) [Device δ] where
  /-- The bytes of the file. -/
  Has : δ → ByteArray → Prop
  size_eq {d : δ} {b : ByteArray} : Has d b → Device.size d = b.size
  read_ends {d : δ} {b : ByteArray} {pos len : Nat} : Has d b → 0 < len → len < Bytes.limit →
    pos + len < UInt64.size → Ends (Device.read pos len) d
      (fun data t => (data = slice b pos len ∧ pos + len ≤ b.size) ∧ Has t b)
      fun f _ => (∃ e, f = .error e) ∧ b.size < pos + len

/-- A range within these bytes is read as it is there, and any other refused. -/
def Answers {δ : Type} [Device δ] (b : ByteArray) (I : δ → Prop) (d : δ) : Prop :=
  ∀ {pos len}, 0 < len → len < Bytes.limit → pos + len < UInt64.size → Ends (Device.read pos len) d
    (fun data t => (data = slice b pos len ∧ pos + len ≤ b.size) ∧ I t)
    fun f _ => (∃ e, f = .error e) ∧ b.size < pos + len

/-- As long as the device is only read, it answers from these bytes. -/
def ReadsAs {δ : Type} [Device δ] (d : δ) (b : ByteArray) : Prop :=
  ∃ I : δ → Prop, I d ∧ ∀ d, I d → Answers b I d

theorem Legible.answers {δ : Type} [Device δ] [Legible δ] {d : δ} {b : ByteArray}
    (h : Legible.Has d b) : Answers b (fun d => Legible.Has d b) d := Legible.read_ends h

theorem Legible.readsAs {δ : Type} [Device δ] [Legible δ] {d : δ} {b : ByteArray}
    (h : Legible.Has d b) : ReadsAs d b := ⟨_, h, fun _ => Legible.answers⟩

namespace Memory

variable {m : Memory} {b : ByteArray} {pos len : Nat}

theorem read_legible (h : m.bytes = b) (hword : pos + len < UInt64.size) :
    Ends (Memory.read pos len) m
      (fun data t => (data = slice b pos len ∧ pos + len ≤ b.size) ∧ t.bytes = b)
      fun f _ => (∃ e, f = .error e) ∧ b.size < pos + len := by
  subst h
  unfold Memory.read
  rw [ends_bind, ends_get, ends_bind, ends_checked (word64_of_lt hword)]
  split
  · next hend => exact ends_refuse.2 ⟨⟨_, rfl⟩, hend⟩
  · next hend => exact ends_pure.2 ⟨⟨rfl, Nat.le_of_not_lt hend⟩, rfl⟩

instance : Legible Memory where
  Has m b := m.bytes = b
  size_eq h := congrArg ByteArray.size h
  read_ends h _ _ hword := read_legible h hword

end Memory

namespace Disk

variable {d : Disk} {b : ByteArray} {pos len : Nat}

/-- The file holds these bytes, and the size that is counted is its length. -/
structure Has (d : Disk) (b : ByteArray) : Prop where
  bytes : d.content.toBytes = b
  size : d.size = d.content.length
  length_le : d.content.length ≤ d.limit

theorem Has.size_eq (h : Has d b) : b.size = d.content.length := by
  rw [← h.bytes, d.content.size_toBytes]

theorem read_legible (h : Has d b) (hn : 0 < len) (hlen : len < Bytes.limit) :
    Ends (Disk.read pos len) d
      (fun data t => (data = slice b pos len ∧ pos + len ≤ b.size) ∧ Has t b)
      fun f _ => (∃ e, f = .error e) ∧ b.size < pos + len := by
  have hsize := h.size_eq
  have hlimit := h.length_le
  unfold Disk.read
  rw [ends_bind, ends_get]
  by_cases hpos : d.limit < pos
  · rw [if_pos hpos, ends_bind]
    exact ends_refuse.2 ⟨⟨_, rfl⟩, by omega⟩
  rw [if_neg hpos, ends_bind, ends_checked (room_eq_ok.2 hlen), if_neg (by omega)]
  split
  · exact ends_refuse.2 ⟨⟨_, rfl⟩, by omega⟩
  · next hend =>
    refine ends_pure.2 ⟨⟨?_, by omega⟩, h⟩
    rw [← h.bytes]
    exact Sparse.slice_slice (Nat.le_of_not_lt hend)

instance : Legible Disk where
  Has := Has
  size_eq h := h.size.trans h.size_eq.symm
  read_ends h hn hlen _ := read_legible h hn hlen

end Disk

namespace File

variable {α : Type} {onMemory : Action Memory α} {onDisk : Action Disk α} {m : Memory} {d : Disk}
  {Q : α → File → Prop} {E : Failure → File → Prop}

theorem ends_run_memory (h : Ends onMemory m (fun a t => Q a (.memory t)) fun f t => E f (.memory t)) :
    Ends (run onMemory onDisk) (.memory m) Q E := by
  rw [ends_iff] at h ⊢
  rw [run]
  rcases hrun : onMemory m with ⟨f | a, t⟩ <;> rwa [hrun] at h

theorem ends_run_disk (h : Ends onDisk d (fun a t => Q a (.disk t)) fun f t => E f (.disk t)) :
    Ends (run onMemory onDisk) (.disk d) Q E := by
  rw [ends_iff] at h ⊢
  rw [run]
  rcases hrun : onDisk d with ⟨f | a, t⟩ <;> rwa [hrun] at h

/-- The bytes of the file, whichever way it is kept. -/
def Has : File → ByteArray → Prop
  | .memory m, b => m.bytes = b
  | .disk d, b => d.Has b

instance : Legible File where
  Has := Has
  size_eq {f b} h := by
    cases f with
    | memory m => exact congrArg ByteArray.size h
    | disk d => exact h.size.trans h.size_eq.symm
  read_ends {f b pos len} h hn hlen hword := by
    cases f with
    | memory m => exact ends_run_memory (Memory.read_legible h hword)
    | disk d => exact ends_run_disk (Disk.read_legible h hn hlen)

end File

namespace Traced

variable {δ ν : Type} [Device δ]

/-- The device has been asked for bytes since, and for nothing else. -/
def Reads (t t' : Traced δ ν) : Prop :=
  ∃ calls : List (Nat × Nat),
    t'.log.toList = t.log.toList ++ calls.map fun c => .call (.read c.1 c.2)

omit [Device δ] in
theorem Reads.refl (t : Traced δ ν) : t.Reads t := ⟨[], (List.append_nil _).symm⟩

omit [Device δ] in
theorem Reads.step {t t' t'' : Traced δ ν} {pos len : Nat} (h : t.Reads t')
    (hlog : t''.log = t'.log.push (.call (.read pos len))) : t.Reads t'' := by
  obtain ⟨calls, hcalls⟩ := h
  refine ⟨calls ++ [(pos, len)], ?_⟩
  rw [hlog, Array.toList_push, hcalls, List.map_append, List.append_assoc]
  rfl

theorem read_reads {t t' : Traced δ ν} {pos len : Nat} (h : t.Reads t') :
    Ends (Device.read pos len) t' (fun _ u => t.Reads u) fun _ u => t.Reads u := by
  refine ends_step (fun _ _ hu => h.step hu.log) fun u hu => ?_
  exact ⟨fun _ _ _ => h.step hu.log, fun _ _ _ => h.step hu.log⟩

/-- With no read of its own to fail, it can be read like the device below. -/
instance [Legible δ] : Legible (Traced δ ν) where
  Has t b := Legible.Has t.inner b ∧ t.plan .read = none
  size_eq h := Legible.size_eq (δ := δ) h.1
  read_ends {t b pos len} h hn hlen hword := by
    obtain ⟨hb, hplan⟩ := h
    refine ends_step (fun hno => absurd hplan hno) fun u hu => ?_
    exact (Legible.read_ends hb hn hlen hword).mono (fun _ _ hq => ⟨hq.1, hq.2, hu.plan _ hplan⟩)
      fun _ _ hf => hf

end Traced

end Device

/-- The blocks of the chunks are free, and no two chunks share a block. -/
structure Occupancy.Admits (o : Occupancy) (cs : List Chunk) : Prop where
  vacant : ∀ c ∈ cs, o.Vacant c.first c.len.toNat
  disjoint : cs.Pairwise fun c d => ∀ b, c.Covers b → ¬d.Covers b

theorem Occupancy.admits_cons {o : Occupancy} {c : Chunk} {cs : List Chunk} :
    o.Admits (c :: cs) ↔ o.Vacant c.first c.len.toNat ∧
      Admits { o with used := o.used.insertRange c.first c.after } cs := by
  constructor
  · rintro ⟨hvacant, hdisjoint⟩
    obtain ⟨hc, hcs⟩ := List.pairwise_cons.1 hdisjoint
    refine ⟨hvacant c List.mem_cons_self, fun d hd b h1 h2 hb => ?_, hcs⟩
    rcases Bitmap.mem_insertRange.1 hb with hb | hb
    · exact hvacant d (List.mem_cons_of_mem _ hd) b h1 h2 hb
    · exact hc d hd b hb ⟨h1, h2⟩
  · rintro ⟨hc, hvacant, hdisjoint⟩
    refine ⟨List.forall_mem_cons.2 ⟨hc, fun d hd b h1 h2 hb => ?_⟩,
      List.pairwise_cons.2 ⟨fun d hd b hb hd' => ?_, hdisjoint⟩⟩
    · exact hvacant d hd b h1 h2 (Bitmap.mem_insertRange.2 (.inl hb))
    · exact hvacant d hd b hd'.1 hd'.2 (Bitmap.mem_insertRange.2 (.inr hb))

/-- The computation has a result or is refused. -/
def Faultless {α : Type} (x : Except Failure α) : Prop := ∀ f, x = .error f → ∃ e, f = .error e

namespace Faultless

variable {α : Type} {x : Except Failure α}

theorem of_ok {a : α} (h : x = .ok a) : Faultless x := by
  subst h
  exact nofun

theorem of_eq_error {e : StoreError} (h : x = .error (.error e)) : Faultless x := by
  subst h
  rintro _ ⟨⟩
  exact ⟨e, rfl⟩

end Faultless

theorem Action.ends_of_faultless {σ α : Type} {x : Except Failure α} {s : σ} {Q : α → σ → Prop}
    {E : Failure → σ → Prop} (h : Faultless x) (hq : ∀ a, x = .ok a → Q a s)
    (he : ∀ e, x = .error (.error e) → E (.error e) s) : Ends (liftM x : Action σ α) s Q E := by
  cases hx : x with
  | error f =>
    obtain ⟨e, rfl⟩ := h f hx
    exact ends_iff.2 (he e hx)
  | ok a => exact ends_iff.2 (hq a hx)

theorem Frame.verify_faultless {c : Chunk} (buf : ByteArray) (h : c.after < UInt64.size) :
    Faultless (verify buf c) := by
  rcases verify_total buf fun _ => h with ⟨damage, hdamage⟩ | ⟨head, _, hok, -⟩
  · exact .of_eq_error hdamage
  · exact .of_ok hok

namespace Engine

open Device

variable {δ : Type} [Device δ] [Legible δ] {e : Engine δ} {b : ByteArray} {c : Chunk}
  {pos len : Nat} {P : δ → Prop}

omit [Legible δ] in
theorem read_of_answers (h : Answers b P e.device) (hn : 0 < len) (hlen : len < Bytes.limit)
    (hword : pos + len < UInt64.size) :
    Ends (read pos len) e (fun data e' => (data = slice b pos len ∧ pos + len ≤ b.size) ∧
        P e'.device ∧ e'.occupancy = e.occupancy)
      fun f _ => (∃ e, f = .error e) ∧ b.size < pos + len := by
  unfold read onDevice
  rw [ends_bind, ends_within]
  refine (h hn hlen hword).mono (fun data d hd => ?_) fun _ _ hf => hf
  rw [ends_bind, ends_modify]
  exact ends_pure.2 ⟨hd.1, hd.2, rfl⟩

theorem read_legible (h : Legible.Has e.device b) (hn : 0 < len) (hlen : len < Bytes.limit)
    (hword : pos + len < UInt64.size) :
    Ends (read pos len) e (fun data e' => (data = slice b pos len ∧ pos + len ≤ b.size) ∧
        Legible.Has e'.device b ∧ e'.occupancy = e.occupancy)
      fun f _ => (∃ e, f = .error e) ∧ b.size < pos + len :=
  read_of_answers (Legible.answers h) hn hlen hword

omit [Legible δ] in
/-- A chunk is loaded exactly if its blocks are within the file and pass for it. -/
theorem load_of_answers (h : Answers b P e.device)
    (hn : 0 < c.len.toNat) (hroom : c.after * blockSize < UInt64.size) :
    Ends (load c) e (fun a e' => (c.after * blockSize ≤ b.size ∧
      a.2 = slice b (c.first * blockSize) c.byteLen ∧ Frame.verify a.2 c = .ok a.1) ∧
        P e'.device ∧ e'.occupancy = e.occupancy)
      fun f _ => (∃ e, f = .error e) ∧ (c.after * blockSize ≤ b.size →
        ∀ head, Frame.verify (slice b (c.first * blockSize) c.byteLen) c ≠ .ok head) := by
  have hafter := c.after_eq
  have hlen := c.len.toNat_lt
  have hbytes : c.first * blockSize + c.byteLen = c.after * blockSize := by
    rw [Chunk.byteLen, ← Nat.add_mul, hafter]
  have hsmall : c.byteLen < Bytes.limit := by
    have hlimit : Bytes.limit = 2 ^ 63 := by decide
    rw [Chunk.byteLen, hlimit, mul_blockSize]
    omega
  unfold load
  rw [ends_bind, ends_checked (Chunk.start_eq (by omega))]
  refine (read_of_answers h (by rw [Chunk.byteLen, mul_blockSize]; omega) hsmall (by omega)).bind ?_ ?_
  · rintro _ e' ⟨⟨rfl, hle⟩, hd⟩
    have hsure := Frame.verify_faultless (slice b (c.first * blockSize) c.byteLen) (c := c) (by
      rw [mul_blockSize] at hroom
      omega)
    rw [ends_bind]
    refine ends_of_faultless hsure (fun head hverify => ?_) fun e hverify => ⟨⟨e, rfl⟩, ?_⟩
    · exact ends_pure.2 ⟨⟨by omega, rfl, hverify⟩, hd⟩
    · intro _ head hhead
      cases hverify.symm.trans hhead
  · rintro f _ ⟨herror, hlt⟩
    exact ⟨herror, fun hle => by omega⟩

theorem load_legible (h : Legible.Has e.device b) (hn : 0 < c.len.toNat)
    (hroom : c.after * blockSize < UInt64.size) :
    Ends (load c) e (fun a e' => (c.after * blockSize ≤ b.size ∧
      a.2 = slice b (c.first * blockSize) c.byteLen ∧ Frame.verify a.2 c = .ok a.1) ∧
        Legible.Has e'.device b ∧ e'.occupancy = e.occupancy)
      fun f _ => (∃ e, f = .error e) ∧ (c.after * blockSize ≤ b.size →
        ∀ head, Frame.verify (slice b (c.first * blockSize) c.byteLen) c ≠ .ok head) :=
  load_of_answers (Legible.answers h) hn hroom

omit [Device δ] [Legible δ] in
/-- A chunk is marked if its blocks are free, and refused otherwise. -/
theorem markChunk_legible (hb : e.occupancy.blockSize = blockSize)
    (hroom : c.after * blockSize < UInt64.size) :
    Ends (markChunk c) e (fun _ e' => e.occupancy.Vacant c.first c.len.toNat ∧
        e'.occupancy = { e.occupancy with
          used := e.occupancy.used.insertRange c.first c.after })
      fun f _ => (∃ e, f = .error e) ∧ ¬e.occupancy.Vacant c.first c.len.toNat := by
  have hafter := c.after_eq
  have hstart : c.first * blockSize < UInt64.size := by simp only [mul_blockSize] at *; omega
  have hstop : c.first + c.len.toNat < UInt64.size := by simp only [mul_blockSize] at *; omega
  unfold markChunk mark
  rw [ends_bind, ends_checked (Chunk.start_eq hstart), ends_bind, ends_get, ends_bind, Chunk.byteLen]
  by_cases hv : e.occupancy.Vacant c.first c.len.toNat
  · rw [ends_except (Occupancy.mark_eq hb (by decide) hstop hv), ends_modify]
    exact ⟨hv, rfl⟩
  · rw [Occupancy.mark_eq_error hb (by decide) hstop hv]
    exact ends_iff.2 ⟨⟨_, rfl⟩, hv⟩

omit [Device δ] [Legible δ] in
/-- Chunks are marked one after another as long as each finds its blocks free. The order in which
overlaps are met makes no difference. -/
theorem markAll_legible {cs : List Chunk} (hb : e.occupancy.blockSize = blockSize)
    (hroom : ∀ c ∈ cs, c.after * blockSize < UInt64.size) :
    Ends (cs.forM markChunk) e (fun _ e' => e.occupancy.Admits cs ∧
        ∀ b, b ∈ e'.occupancy.used ↔ b ∈ e.occupancy.used ∨ ∃ c ∈ cs, c.Covers b)
      fun f _ => (∃ e, f = .error e) ∧ ¬e.occupancy.Admits cs := by
  induction cs generalizing e with
  | nil => exact ends_pure.2 ⟨⟨List.forall_mem_nil _, .nil⟩, fun b => by simp⟩
  | cons c cs ih =>
    refine (markChunk_legible hb (hroom c List.mem_cons_self)).bind ?_ ?_
    · rintro _ e₁ ⟨hv, ho⟩
      refine (ih (e := e₁) (by rw [ho]; exact hb) fun d hd => hroom d (List.mem_cons_of_mem _ hd)).mono ?_ ?_
      · rintro _ e' ⟨hadmits, hused⟩
        rw [ho] at hadmits hused
        refine ⟨Occupancy.admits_cons.2 ⟨hv, hadmits⟩, fun b => ?_⟩
        rw [hused, Bitmap.mem_insertRange, List.exists_mem_cons_iff, or_assoc]
        rfl
      · rintro f _ ⟨herror, hno⟩
        rw [ho] at hno
        exact ⟨herror, fun h => hno (Occupancy.admits_cons.1 h).2⟩
    · rintro f _ ⟨herror, hno⟩
      exact ⟨herror, fun h => hno (Occupancy.admits_cons.1 h).1⟩

end Engine

end BlockStore
