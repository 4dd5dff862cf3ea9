import BlockStore.Proofs.Lodging
import BlockStore.Proofs.Reading

namespace BlockStore

open BlockStore.Action Bytes

/-- What a write of `len` bytes at `pos` may leave of the file `b` when it breaks off: any bytes where it
was to write, and the rest as it was. -/
structure Scrap (b : ByteArray) (pos len : Nat) (b' : ByteArray) : Prop where
  le_size : b.size ≤ b'.size
  size_le : b'.size ≤ max b.size (pos + len)
  same : ∀ i, i < b.size → ¬(pos ≤ i ∧ i < pos + len) → (toList b')[i]? = (toList b)[i]?

/-- The blocks in use have in `b'` the bytes that they have in `b`. -/
structure Occupancy.Guards (o : Occupancy) (b b' : ByteArray) : Prop where
  le_size : b.size ≤ b'.size
  same : ∀ i, i < b.size → i / BlockStore.blockSize ∈ o.used → (toList b')[i]? = (toList b)[i]?

namespace Scrap

variable {b b' data : ByteArray} {pos len start n : Nat} {o : Occupancy}

theorem refl (b : ByteArray) (pos len : Nat) : Scrap b pos len b :=
  ⟨Nat.le_refl _, Nat.le_max_left _ _, fun _ _ _ => rfl⟩

/-- A part of the write has been done. -/
theorem of_apply (hle : pos ≤ start) (hend : start + data.size ≤ pos + len) :
    Scrap b pos len (Change.apply b (.write start data)) where
  le_size := by
    rw [Change.size_apply_write]
    exact Nat.le_max_left _ _
  size_le := by
    rw [Change.size_apply_write]
    omega
  same i hi hout := by
    rw [Change.getElem?_apply_write (.inl hi), if_neg (by omega)]

/-- A write to free blocks harms none that is in use. -/
theorem guards (h : Scrap b (start * blockSize) (n * blockSize) b') (hv : o.Vacant start n) :
    o.Guards b b' where
  le_size := h.le_size
  same i hi hused := by
    refine h.same i hi fun ⟨hlo, hhi⟩ => hv (i / blockSize) ?_ ?_ hused
    · exact (Nat.le_div_iff_mul_le (by decide)).2 hlo
    · rw [← Nat.add_mul] at hhi
      exact (Nat.div_lt_iff_lt_mul (by decide)).2 hhi

end Scrap

namespace Occupancy.Guards

variable {o : Occupancy} {b b' data p : ByteArray} {start n : Nat} {c : Chunk}

theorem refl (o : Occupancy) (b : ByteArray) : o.Guards b b := ⟨Nat.le_refl _, fun _ _ _ => rfl⟩

theorem holds (h : o.Guards b b') (hf : o.Filled start n) (hs : data.size = n * BlockStore.blockSize)
    (hb : Holds b (start * BlockStore.blockSize) data) : Holds b' (start * BlockStore.blockSize) data := by
  obtain ⟨hend, hat⟩ := holds_iff.1 hb
  refine holds_iff.2 ⟨Nat.le_trans hend h.le_size, fun i hi => ?_⟩
  rw [← hat i hi]
  refine h.same _ (by omega) (hf _ ?_ ?_)
  · exact (Nat.le_div_iff_mul_le (by decide)).2 (Nat.le_add_right _ _)
  · refine (Nat.div_lt_iff_lt_mul (by decide)).2 ?_
    rw [Nat.add_mul]
    omega

theorem kept (h : o.Guards b b') (hf : o.Filled c.first c.len.toNat) : c.Kept b b' :=
  fun _ hs hb => h.holds hf hs hb

theorem carries (h : o.Guards b b') (hf : o.Filled c.first c.len.toNat) (hc : Carries b c p) :
    Carries b' c p := ⟨hc.fits, h.kept hf _ (Frame.size_framed hc.fits) hc.holds⟩

theorem stocks {cs : List Chunk} {contents : Contents} (h : o.Guards b b')
    (hf : ∀ c ∈ cs, o.Filled c.first c.len.toNat) (hc : Stocks b cs contents) :
    Stocks b' cs contents where
  carries c hm := by
    obtain ⟨p, hp, hcarries⟩ := hc.carries c hm
    exact ⟨p, hp, h.carries (hf c hm) hcarries⟩
  named := hc.named

theorem names {s : Superblock} (h : o.Guards b b') (hheader : ∀ k, k < BlockStore.headerBlocks → k ∈ o.used)
    (hs : s.Names b) : s.Names b' := by
  have hsize : s.copy.size = 1 * BlockStore.blockSize := s.size_copy.trans (Nat.one_mul _).symm
  have hfirst : o.Filled 0 1 := fun k _ hk => hheader k (Nat.lt_of_lt_of_le hk (by decide))
  have hsecond : o.Filled 1 1 := fun k _ hk => hheader k (Nat.lt_of_lt_of_le hk (by decide))
  have h₀ := hs.1
  have h₁ := hs.2
  rw [← Nat.zero_mul BlockStore.blockSize] at h₀
  rw [← Nat.one_mul BlockStore.blockSize] at h₁
  have h₀ := h.holds hfirst hsize h₀
  have h₁ := h.holds hsecond hsize h₁
  rw [Nat.zero_mul] at h₀
  rw [Nat.one_mul] at h₁
  exact ⟨h₀, h₁⟩

/-- The last commit is on the file, and durable if that is. -/
theorem settled {E : Edition} {m : Medium} {contents : Contents} (h : o.Guards m.content b')
    (hheader : ∀ k, k < BlockStore.headerBlocks → k ∈ o.used)
    (hf : ∀ c ∈ E.held, o.Filled c.first c.len.toNat) (hE : E.Settled m contents) :
    E.Settled ⟨b', []⟩ contents where
  sound := hE.sound
  backed :=
    have hb := hE.read_content.backed
    ⟨fun root hr => h.carries (hf root (Edition.mem_held.2 (.inr hr))) (hb.root root hr),
      h.stocks (fun c hc => hf c (Edition.mem_held.2 (.inl hc))) hb.stocks⟩
  names := h.names hheader (hE.names.foldl hE.calm_header)
  calm_header := nofun
  calm _ _ := nofun

end Occupancy.Guards

namespace Device

/-- A device that can be read, whatever becomes of its writes: one that is answered with an error leaves
the bytes outside its range alone. What size is counted after it does not matter. -/
class Brittle (δ : Type) [Device δ] extends Legible δ where
  read_keeps {d : δ} {b : ByteArray} {pos len : Nat} : Has d b →
    Ends (Device.read pos len) d (fun _ t => Has t b) fun _ t => Has t b
  write_breaks {d : δ} {b : ByteArray} {pos : Nat} {data : ByteArray} : Has d b →
    Ends (Device.write pos data) d (fun _ _ => True)
      fun f t => ∀ e, f = .error e → ∃ b', ReadsAs t b' ∧ Scrap b pos data.size b'

/-- A device whose calls change nothing unless they succeed. -/
abbrev Brittle.of_same {δ : Type} [Device δ] [Legible δ]
    (hread : ∀ (pos len : Nat) (d : δ), Ends (Device.read pos len) d (fun _ t => t = d) fun _ t => t = d)
    (hwrite : ∀ (pos : Nat) (data : ByteArray) (d : δ),
      Ends (Device.write pos data) d (fun _ _ => True) fun _ t => t = d) : Brittle δ where
  read_keeps h := (hread _ _ _).mono (fun _ _ ht => ht ▸ h) fun _ _ ht => ht ▸ h
  write_breaks h := (hwrite _ _ _).mono (fun _ _ _ => trivial)
    fun _ _ ht _ _ => ⟨_, ht ▸ Legible.readsAs h, .refl _ _ _⟩

namespace Memory

theorem read_same (pos len : Nat) (m : Memory) :
    Ends (Memory.read pos len) m (fun _ t => t = m) fun _ t => t = m := by
  unfold Memory.read
  rw [ends_bind, ends_get, ends_bind]
  refine ends_checked_iff.2 ⟨fun stop _ => ?_, fun _ _ => rfl⟩
  split
  · exact ends_refuse.2 rfl
  · exact ends_pure.2 rfl

/-- A write that fails has not begun. -/
theorem write_same (pos : Nat) (data : ByteArray) (m : Memory) :
    Ends (Memory.write pos data) m (fun _ _ => True) fun _ t => t = m := by
  unfold Memory.write
  rw [ends_bind, ends_get]
  split
  · exact ends_bind.2 (ends_refuse.2 rfl)
  rw [ends_bind]
  refine ends_checked_iff.2 ⟨fun stop _ => ?_, fun _ _ => rfl⟩
  rw [ends_bind]
  exact ends_checked_iff.2 ⟨fun _ _ => ends_modify.2 trivial, fun _ _ => rfl⟩

instance : Brittle Memory := .of_same read_same write_same

end Memory

namespace Disk

theorem read_same (pos len : Nat) (d : Disk) :
    Ends (Disk.read pos len) d (fun _ t => t = d) fun _ t => t = d := by
  unfold Disk.read
  rw [ends_bind, ends_get]
  by_cases hpos : d.limit < pos
  · rw [if_pos hpos, ends_bind]
    exact ends_refuse.2 rfl
  rw [if_neg hpos, ends_bind]
  refine ends_checked_iff.2 ⟨fun _ _ => ?_, fun _ _ => rfl⟩
  split
  · exact ends_pure.2 rfl
  split
  · exact ends_refuse.2 rfl
  · exact ends_pure.2 rfl

theorem write_same (pos : Nat) (data : ByteArray) (d : Disk) :
    Ends (Disk.write pos data) d (fun _ _ => True) fun _ t => t = d := by
  unfold Disk.write
  rw [ends_bind, ends_get]
  cases d.sealed with
  | true => exact ends_bind.2 (ends_refuse.2 rfl)
  | false =>
    rw [if_neg Bool.false_ne_true]
    by_cases hpos : d.limit < pos
    · rw [if_pos hpos, ends_bind]
      exact ends_refuse.2 rfl
    rw [if_neg hpos]
    dsimp only
    by_cases hempty : 0 < data.size
    · rw [if_pos hempty]
      by_cases hstop : d.limit < pos + data.size
      · rw [if_pos hstop, ends_bind]
        exact ends_refuse.2 rfl
      · rw [if_neg hstop, ends_bind]
        exact ends_modify.2 (ends_modify.2 trivial)
    · rw [if_neg hempty]
      exact ends_modify.2 trivial

instance : Brittle Disk := .of_same read_same write_same

end Disk

instance : Brittle File := .of_same
  (fun pos len f => match f with
    | .memory m => File.ends_run_memory ((Memory.read_same pos len m).mono
        (fun _ _ h => congrArg File.memory h) fun _ _ h => congrArg File.memory h)
    | .disk d => File.ends_run_disk ((Disk.read_same pos len d).mono
        (fun _ _ h => congrArg File.disk h) fun _ _ h => congrArg File.disk h))
  fun pos data f => match f with
    | .memory m => File.ends_run_memory ((Memory.write_same pos data m).mono
        (fun _ _ _ => trivial) fun _ _ h => congrArg File.memory h)
    | .disk d => File.ends_run_disk ((Disk.write_same pos data d).mono
        (fun _ _ _ => trivial) fun _ _ h => congrArg File.disk h)

namespace Traced

variable {δ ν : Type} [Device δ] {t : Traced δ ν} {b : ByteArray}

theorem readsAs (h : ReadsAs t.inner b) (hplan : t.plan .read = none) : ReadsAs t b := by
  obtain ⟨I, hI, hanswers⟩ := h
  refine ⟨fun t => I t.inner ∧ t.plan .read = none, ⟨hI, hplan⟩, ?_⟩
  rintro u ⟨hu, hplan⟩ pos len hn hlen hword
  refine ends_step (fun hno => absurd hplan hno) fun u' hu' => ?_
  exact (hanswers u.inner hu hn hlen hword).mono (fun _ _ hq => ⟨hq.1, hq.2, hu'.plan _ hplan⟩)
    fun _ _ hf => hf

/-- A device that can be told to fail may also fail in the middle of a write, like the one below. -/
instance [Brittle δ] : Brittle (Traced δ ν) where
  read_keeps h := by
    obtain ⟨hb, hplan⟩ := h
    refine ends_step (fun hno => absurd hplan hno) fun u hu => ?_
    exact (Brittle.read_keeps hb).mono (fun _ _ h => ⟨h, hu.plan _ hplan⟩)
      fun _ _ h => ⟨h, hu.plan _ hplan⟩
  write_breaks {t b pos data} h := by
    obtain ⟨hb, hplan⟩ := h
    refine ends_step (fun _ u hu _ _ => ?_) fun u hu => ?_
    · exact ⟨b, readsAs (hu.inner ▸ Legible.readsAs hb) (hu.plan _ hplan), .refl _ _ _⟩
    · refine (Brittle.write_breaks hb).mono (fun _ _ _ => trivial) fun f d hf e he => ?_
      obtain ⟨b', hd, hscrap⟩ := hf e he
      exact ⟨b', readsAs hd (hu.plan _ hplan), hscrap⟩

end Traced

end Device

end BlockStore
