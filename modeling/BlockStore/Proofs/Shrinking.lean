import BlockStore.Engine
import BlockStore.Proofs.Reading

namespace BlockStore

open BlockStore.Action Bytes

theorem Sparse.slice_resize {s : Sparse} {n len : Nat} (h : n ≤ len) :
    (s.resize n).slice 0 n = (s.slice 0 len).extract 0 n := by
  apply ByteArray.ext_getElem
  · rw [size_slice, ByteArray.size_extract, size_slice]
    omega
  · intro i hi hi'
    rw [size_slice] at hi
    simp only [getElem_slice, ByteArray.getElem_extract, byte_resize, Nat.zero_add, if_pos hi]

namespace Device

namespace File

variable {f : File} {b : ByteArray} {n : Nat}

theorem sync_ends (h : Has f b) :
    Ends (Device.sync : Action File Unit) f
      (fun _ t => Has t b ∧ Device.readOnly t = Device.readOnly f) fun _ _ => False := by
  cases f with
  | memory m => exact ends_run_memory (ends_modify.2 ⟨h, rfl⟩)
  | disk d => exact ends_run_disk (ends_pure.2 ⟨h, rfl⟩)

/-- A file that can be written can be cut within its bytes. -/
theorem truncate_ends (h : Has f b) (hw : Device.readOnly f = false) (hn : n ≤ b.size) :
    Ends (Device.truncate n : Action File Unit) f (fun _ t => Has t (b.extract 0 n))
      fun _ _ => False := by
  cases f with
  | memory m =>
    have hsealed : m.sealed = false := hw
    have hbytes : m.bytes = b := h
    refine ends_run_memory ?_
    unfold Memory.truncate
    rw [ends_bind, ends_get, hsealed, if_neg Bool.false_ne_true, ends_modify]
    exact congrArg (·.extract 0 n) hbytes
  | disk d =>
    have hsealed : d.sealed = false := hw
    have hdisk : d.Has b := h
    have hsize := hdisk.size_eq
    have hlimit := hdisk.length_le
    have hword := d.limit_lt
    refine ends_run_disk ?_
    unfold Disk.truncate
    rw [ends_bind, ends_get, hsealed, if_neg Bool.false_ne_true, if_neg (by omega),
      if_neg (by omega), ends_modify]
    have hle : n ≤ d.content.length := by omega
    refine ⟨?_, rfl, Nat.le_trans hle hlimit⟩
    rw [← hdisk.bytes]
    exact Sparse.slice_resize hle

end File

/-- A call that is not planned to fail is written down and reaches the device below. -/
theorem Traced.step_passes {δ ν α : Type} {t : Traced δ ν} {c : Call} {act : Action δ α}
    {Q : α → Traced δ ν → Prop} (hplan : t.plan c.kind = none)
    (h : ∀ u, Called t c u → Ends act t.inner (fun a d => Q a { u with inner := d })
      fun _ _ => False) : Ends (step c act) t Q fun _ _ => False :=
  ends_step (fun hno => absurd hplan hno) h

end Device

namespace Engine

open Device

variable {ν : Type} {e : Engine (Traced File ν)} {b : ByteArray} {percent n : Nat}

/-- The file is made durable and then cut to `n` bytes. -/
structure Cuts (e : Engine (Traced File ν)) (b : ByteArray) (n : Nat)
    (e' : Engine (Traced File ν)) : Prop where
  has : File.Has e'.device.inner (b.extract 0 n)
  log : e'.device.log = (e.device.log.push (.call .sync)).push (.call (.truncate n))
  occupancy : e'.occupancy = e.occupancy

theorem cut_ends (hb : File.Has e.device.inner b) (hw : e.readOnly = false)
    (hsync : e.device.plan .sync = none) (hcut : e.device.plan .truncate = none)
    (hn : n ≤ b.size) : Ends (do
      sync
      onDevice (Device.truncate n)
      return true) e (fun done e' => done = true ∧ Cuts e b n e') fun _ _ => False := by
  rw [ends_bind, sync, onDevice, ends_within]
  refine Traced.step_passes hsync fun u hu => (File.sync_ends hb).mono ?_ fun _ _ => False.elim
  rintro _ f ⟨hf, hro⟩
  rw [ends_bind, onDevice, ends_within]
  refine Traced.step_passes (hu.plan _ hcut) fun w hcalled =>
    (File.truncate_ends hf (hro.trans hw) hn).mono (fun _ g hg => ?_) fun _ _ => False.elim
  refine ends_pure.2 ⟨rfl, hg, ?_, rfl⟩
  rw [← hu.log]
  exact hcalled.log

/-- The share of the file that is given up counts as a percentage that is rounded up. -/
theorem le_saved_iff {stop size : Nat} (h : stop < size) :
    percent ≤ 100 - stop * 100 / size ↔ (percent - 1) * size < 100 * (size - stop) := by
  have hkept : stop * 100 / size < 100 := (Nat.div_lt_iff_lt_mul (by omega)).2 (by omega)
  have hdiv : stop * 100 / size < 101 - percent ↔ stop * 100 < (101 - percent) * size :=
    Nat.div_lt_iff_lt_mul (by omega)
  have hfull : 101 ≤ percent → 101 * size ≤ percent * size := Nat.mul_le_mul_right size
  have hone : 1 ≤ percent → 1 * size ≤ percent * size := Nat.mul_le_mul_right size
  rw [Nat.sub_mul] at hdiv ⊢
  generalize stop * 100 / size = kept at hkept hdiv ⊢
  omega

/-- Behind the last block in use there is something to give up: a whole block, unless any percentage
will do, and more than `percent - 1` percent of the file. -/
def Worth (e : Engine (Traced File ν)) (size percent : Nat) : Prop :=
  e.readOnly = false ∧ e.occupancy.stop * blockSize < size ∧
    (percent = 0 ∨ blockSize ≤ size - e.occupancy.stop * blockSize) ∧
    (percent - 1) * size < 100 * (size - e.occupancy.stop * blockSize)

theorem worth_iff (size percent : Nat) (hw : e.readOnly = false) : e.Worth size percent ↔
    ¬size ≤ e.occupancy.stop * blockSize ∧
      ¬(0 < percent ∧ size - e.occupancy.stop * blockSize < blockSize) ∧
        ¬100 - e.occupancy.stop * blockSize * 100 / size < percent := by
  rw [Worth, hw, eq_self, true_and, Nat.not_le]
  refine and_congr_right fun hend => and_congr (by omega) ?_
  rw [Nat.not_lt, le_saved_iff hend]

/-- With no call failing, the file is cut behind the last block in use if that is worth it, and
else nothing happens. Because of the rounding less than `percent` percent may be enough. -/
theorem shrink_cuts_iff (percent : Nat) (hb : File.Has e.device.inner b)
    (ho : e.occupancy.blockSize = blockSize)
    (hsync : e.device.plan .sync = none) (hcut : e.device.plan .truncate = none)
    (hsize : b.size < 2 ^ 57) (hstop : e.occupancy.stop * blockSize < UInt64.size) :
    ∃ done e', shrink percent e = (.ok done, e') ∧ (done = true ↔ e.Worth b.size percent) ∧
      (done = true → e.Cuts b (e.occupancy.stop * blockSize) e') ∧ (done = false → e' = e) := by
  refine Ends.total ?_
  have hidle (h : ¬e.Worth b.size percent) : Ends (pure false) e (fun done e' =>
      (done = true ↔ e.Worth b.size percent) ∧
        (done = true → e.Cuts b (e.occupancy.stop * blockSize) e') ∧ (done = false → e' = e))
      fun _ _ => False :=
    ends_pure.2 ⟨⟨nofun, fun hworth => absurd hworth h⟩, nofun, fun _ => rfl⟩
  have hbytes : e.size = b.size := Legible.size_eq (δ := File) hb
  unfold shrink
  rw [ends_bind, ends_get, hbytes]
  cases hro : e.readOnly with
  | true => exact hidle fun hworth => Bool.false_ne_true (hworth.1.symm.trans hro)
  | false =>
  have hworth := worth_iff b.size percent hro
  rw [if_neg Bool.false_ne_true, ends_bind, ends_checked (Occupancy.stopPos_eq ho hstop)]
  by_cases hend : b.size ≤ e.occupancy.stop * blockSize
  · rw [if_pos hend]
    exact hidle fun h => (hworth.1 h).1 hend
  by_cases hless : 0 < percent ∧ b.size - e.occupancy.stop * blockSize < blockSize
  · rw [if_neg hend, if_pos hless]
    exact hidle fun h => (hworth.1 h).2.1 hless
  have hhundred : e.occupancy.stop * blockSize * 100 < UInt64.size := by
    simp only [UInt64.size]
    omega
  rw [if_neg hend, if_neg hless, ends_bind, ends_checked (word64_of_lt hhundred)]
  by_cases hlow : 100 - e.occupancy.stop * blockSize * 100 / b.size < percent
  · rw [if_pos hlow]
    exact hidle fun h => (hworth.1 h).2.2 hlow
  rw [if_neg hlow]
  refine (cut_ends hb hro hsync hcut (by omega)).mono ?_ fun _ _ => id
  rintro _ e' ⟨rfl, h⟩
  exact ⟨iff_of_true rfl (hworth.2 ⟨hend, hless, hlow⟩), fun _ => h, nofun⟩

/-- Three blocks, of which only those of the header are in use. -/
def roomy : Engine (Traced File Unit) where
  device := { inner := .memory { bytes := zeros (3 * blockSize) } }
  settings := {}
  occupancy := .create headerBlocks blockSize
  reserved := .nothing
  reuse := true
  pool := ⟨4, []⟩

/-- A third of the file is given up where 34 percent are asked for. -/
theorem shrink_cuts_iff_roomy :
    File.Has roomy.device.inner (zeros (3 * blockSize)) ∧ roomy.occupancy.blockSize = blockSize ∧
      roomy.device.plan .sync = none ∧ roomy.device.plan .truncate = none ∧
      (zeros (3 * blockSize)).size < 2 ^ 57 ∧ roomy.occupancy.stop * blockSize < UInt64.size ∧
      ∃ e', shrink 34 roomy = (.ok true, e') ∧
        roomy.Cuts (zeros (3 * blockSize)) (2 * blockSize) e' ∧
        100 * (3 * blockSize - 2 * blockSize) < 34 * (3 * blockSize) := by
  have hsize : (zeros (3 * blockSize)).size = 3 * blockSize := size_zeros _
  have hstop : roomy.occupancy.stop = 2 := by decide +kernel
  have hword : roomy.occupancy.stop * blockSize < UInt64.size := by rw [hstop]; decide
  have hsmall : (zeros (3 * blockSize)).size < 2 ^ 57 := by rw [hsize]; decide
  obtain ⟨done, e', hrun, hdone, hcuts, -⟩ :=
    shrink_cuts_iff (e := roomy) (b := zeros (3 * blockSize)) 34 rfl rfl rfl rfl hsmall hword
  have hworth : roomy.Worth (zeros (3 * blockSize)).size 34 := by
    rw [Worth, hsize, hstop]
    decide
  obtain rfl := hdone.2 hworth
  rw [hstop] at hcuts
  exact ⟨rfl, rfl, rfl, rfl, hsmall, hword, e', hrun, hcuts rfl, by decide⟩

end Engine

end BlockStore
