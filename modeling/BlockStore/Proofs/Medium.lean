import BlockStore.Geometry
import BlockStore.Proofs.Bytes

namespace BlockStore

open Bytes

/-- What a call does to the bytes of a file. -/
inductive Change
  | write (pos : Nat) (data : ByteArray)
  | cut (size : Nat)

namespace Change

def apply (b : ByteArray) : Change → ByteArray
  | write pos data => overwrite (grow b (pos + data.size)) pos data
  | cut size => b.extract 0 size

/-- The parts of a change that reach the disk on their own: a write goes by blocks. -/
def pieces : Change → List Change
  | write pos data => (List.range (blocksCovering data.size blockSize)).map fun i =>
      write (pos + i * blockSize)
        (slice data (i * blockSize) (min blockSize (data.size - i * blockSize)))
  | cut size => [cut size]

/-- The change puts no byte at `n` or behind. -/
def Below : Change → Nat → Prop
  | write pos data, n => pos + data.size < n
  | cut _, _ => True

/-- The change keeps off the `len` bytes from `pos` on. -/
def Avoids : Change → Nat → Nat → Prop
  | write start data, pos, len => start + data.size ≤ pos ∨ pos + len ≤ start
  | cut size, pos, len => pos + len ≤ size

variable {b data : ByteArray} {c : Change} {pos len start i n : Nat}

theorem size_apply_write (b : ByteArray) (pos : Nat) (data : ByteArray) :
    (apply b (.write pos data)).size = max b.size (pos + data.size) := by
  rw [apply, size_overwrite (by rw [size_grow]; omega), size_grow]

theorem size_apply_cut (b : ByteArray) (size : Nat) :
    (apply b (.cut size)).size = min size b.size := by
  rw [apply, ByteArray.size_extract, Nat.sub_zero]

theorem Below.size_apply_lt (hc : c.Below n) (hb : b.size < n) : (c.apply b).size < n := by
  cases c with
  | write pos data =>
    rw [size_apply_write]
    exact Nat.max_lt.2 ⟨hb, hc⟩
  | cut size =>
    rw [size_apply_cut]
    omega

theorem size_foldl_lt {cs : List Change} (hc : ∀ c ∈ cs, c.Below n) (hb : b.size < n) :
    (cs.foldl apply b).size < n := by
  induction cs generalizing b with
  | nil => exact hb
  | cons c cs ih =>
    exact ih (fun d hd => hc d (List.mem_cons_of_mem _ hd))
      ((hc c List.mem_cons_self).size_apply_lt hb)

theorem Below.piece (hc : c.Below n) {p : Change} (hp : p ∈ c.pieces) : p.Below n := by
  cases c with
  | write start data =>
    simp only [pieces, List.mem_map, List.mem_range] at hp
    obtain ⟨i, hi, rfl⟩ := hp
    simp only [blocksCovering, blockSize] at hi
    simp only [Below, blockSize] at hc ⊢
    rw [size_slice (by omega)]
    omega
  | cut size =>
    obtain rfl := List.mem_singleton.1 hp
    exact hc

theorem getElem?_apply_write (hi : i < b.size ∨ start ≤ i ∧ i < start + data.size) :
    (toList (apply b (.write start data)))[i]? =
      if start ≤ i ∧ i < start + data.size then (toList data)[i - start]? else (toList b)[i]? := by
  have hb : (toList b).length = b.size := rfl
  have hd : (toList data).length = data.size := rfl
  rw [apply, toList_overwrite, toList_grow]
  simp only [List.getElem?_append, List.length_append, List.length_take, List.length_replicate,
    List.getElem?_take, List.getElem?_drop, hb, hd]
  have hmin : min start (b.size + (start + data.size - b.size)) = start := by omega
  rw [hmin]
  split
  · next h1 =>
    split
    · next h2 => rw [if_pos (by omega), if_neg (by omega)]
    · next h2 => rw [if_pos (by omega)]
  · next h1 =>
    have hback : start + data.size + (i - (start + data.size)) = i := by omega
    rw [hback, if_pos (by omega), if_neg (by omega)]

theorem holds_write (b : ByteArray) (pos : Nat) (data : ByteArray) :
    Holds (apply b (.write pos data)) pos data := by
  refine holds_iff.2 ⟨by rw [size_apply_write]; omega, fun i hi => ?_⟩
  rw [getElem?_apply_write (by omega), if_pos (by omega), Nat.add_sub_cancel_left]

theorem Avoids.holds (ha : c.Avoids pos data.size) (h : Holds b pos data) :
    Holds (c.apply b) pos data := by
  obtain ⟨hle, hat⟩ := holds_iff.1 h
  refine holds_iff.2 ?_
  cases c with
  | write start patch =>
    simp only [Avoids] at ha
    refine ⟨by rw [size_apply_write]; omega, fun i hi => ?_⟩
    rw [getElem?_apply_write (by omega), if_neg (by omega)]
    exact hat i hi
  | cut size =>
    simp only [Avoids] at ha
    refine ⟨by rw [size_apply_cut]; omega, fun i hi => ?_⟩
    rw [apply, toList_extract, List.drop_zero, List.getElem?_take, if_pos (by omega)]
    exact hat i hi

theorem Avoids.piece (ha : c.Avoids pos len) {p : Change} (hp : p ∈ c.pieces) : p.Avoids pos len := by
  cases c with
  | write start data =>
    simp only [pieces, List.mem_map, List.mem_range] at hp
    obtain ⟨i, hi, rfl⟩ := hp
    simp only [blocksCovering, blockSize] at hi
    simp only [Avoids, blockSize] at ha ⊢
    rw [size_slice (by omega)]
    omega
  | cut size =>
    obtain rfl := List.mem_singleton.1 hp
    exact ha

theorem holds_foldl {cs : List Change} (ha : ∀ c ∈ cs, c.Avoids pos data.size)
    (h : Holds b pos data) : Holds (cs.foldl apply b) pos data := by
  induction cs generalizing b with
  | nil => exact h
  | cons c cs ih =>
    exact ih (fun d hd => ha d (List.mem_cons_of_mem _ hd)) ((ha c List.mem_cons_self).holds h)

end Change

/-- A file between two syncs: the bytes that a crash leaves alone, and the changes since, oldest
first. -/
structure Medium where
  durable : ByteArray
  pending : List Change := []

namespace Medium

/-- What a reader sees. -/
def content (m : Medium) : ByteArray := m.pending.foldl Change.apply m.durable

def change (m : Medium) (c : Change) : Medium := { m with pending := m.pending ++ [c] }

def sync (m : Medium) : Medium := ⟨m.content, []⟩

/-- What a crash may leave: of the pieces of the pending changes, any have come to pass. -/
def CrashImage (m : Medium) (b : ByteArray) : Prop :=
  ∃ kept : List Change, kept.Sublist (m.pending.flatMap Change.pieces) ∧ b = kept.foldl Change.apply m.durable

/-- No pending change reaches into the `len` bytes from `pos` on. -/
def Calm (m : Medium) (pos len : Nat) : Prop := ∀ c ∈ m.pending, c.Avoids pos len

/-- No byte of the file, durable or pending, lies at `n` or behind. -/
structure Below (m : Medium) (n : Nat) : Prop where
  durable : m.durable.size < n
  pending : ∀ c ∈ m.pending, c.Below n

variable {m : Medium} {c : Change} {b : ByteArray} {pos len n : Nat}

@[simp] theorem content_sync (m : Medium) : m.sync.content = m.content := rfl

@[simp] theorem content_change (m : Medium) (c : Change) :
    (m.change c).content = c.apply m.content := by
  rw [content, change, List.foldl_append, List.foldl_cons, List.foldl_nil, content]

theorem calm_sync (m : Medium) (pos len : Nat) : m.sync.Calm pos len := nofun

theorem Calm.change (h : m.Calm pos len) (hc : c.Avoids pos len) : (m.change c).Calm pos len := by
  intro d hd
  rcases List.mem_append.1 hd with hd | hd
  · exact h d hd
  · obtain rfl := List.mem_singleton.1 hd
    exact hc

namespace Below

theorem content (h : m.Below n) : m.content.size < n := Change.size_foldl_lt h.pending h.durable

theorem sync (h : m.Below n) : m.sync.Below n := ⟨h.content, nofun⟩

theorem change (h : m.Below n) (hc : c.Below n) : (m.change c).Below n := by
  refine ⟨h.durable, fun d hd => ?_⟩
  rcases List.mem_append.1 hd with hd | hd
  · exact h.pending d hd
  · obtain rfl := List.mem_singleton.1 hd
    exact hc

theorem crashImage (h : m.Below n) (hb : m.CrashImage b) : b.size < n := by
  obtain ⟨kept, hk, rfl⟩ := hb
  refine Change.size_foldl_lt (fun p hp => ?_) h.durable
  obtain ⟨c, hc, hpc⟩ := List.mem_flatMap.1 (hk.subset hp)
  exact (h.pending c hc).piece hpc

end Below

end Medium

end BlockStore
