import BlockStore.Proofs.Backends
import BlockStore.Proofs.Fitting

namespace BlockStore

open BlockStore.Action Bytes

namespace Device

namespace Disk

/-- As many bytes as a file may have, where the file system sets the limit. -/
def capacity : Nat := (UInt32.size - 1) * 4096

/-- The file as it is on the disk. Nothing is told of what would be left of it by a crash. -/
def Shows (d : Disk) (m : Medium) : Prop := PadsTo capacity m.content d ∧ d.Whole

variable {d : Disk} {m : Medium} {pos len n : Nat} {data : ByteArray}

theorem capacity_lt : capacity < Bytes.limit := by decide

theorem Shows.size_le (h : Shows d m) : m.content.size ≤ capacity :=
  h.1.size_eq ▸ h.1.size_le

theorem read_ends (h : Shows d m) (hle : pos + len ≤ m.content.size) :
    Ends (Disk.read pos len) d (fun data t => data = slice m.content pos len ∧ Shows t m)
      fun _ _ => False := by
  have hcapacity := h.size_le
  have hlimit := capacity_lt
  have hlength : d.content.length = m.content.size := h.2.trans h.1.size_eq
  unfold Disk.read
  rw [ends_bind, ends_get, h.1.limit_eq, if_neg (by omega), ends_bind,
    ends_checked (room_eq_ok.2 (by omega))]
  split
  · next hlen =>
    subst hlen
    exact ends_pure.2 ⟨ext_toList (by simp), h⟩
  · rw [if_neg (by omega)]
    refine ends_pure.2 ⟨?_, h⟩
    rw [← h.1.bytes]
    exact Sparse.slice_slice (h.1.size_eq ▸ hle)

theorem write_ends (h : Shows d m) (hn : 0 < data.size) (hroom : pos + data.size < capacity + 1) :
    Ends (Disk.write pos data) d (fun _ t => Shows t (m.change (.write pos data)))
      fun _ _ => False := by
  refine (h.1.write (Nat.le_of_lt_succ hroom)).mono (fun _ t ht => ?_) fun _ _ => id
  rw [Shows, Medium.content_change]
  exact ⟨ht.1, ht.2 h.2 fun hno => absurd hno (by omega)⟩

theorem truncate_ends (h : Shows d m) (hn : n ≤ m.content.size) :
    Ends (Disk.truncate n) d (fun _ t => Shows t (m.change (.cut n))) fun _ _ => False := by
  refine (h.1.truncate capacity_lt hn).mono (fun _ t ht => ?_) fun _ _ => id
  rw [Shows, Medium.content_change]
  exact ht

instance : Lawful Disk where
  Shows := Shows
  room := capacity + 1
  fails := False
  room_le := capacity_lt
  size_lt h := Nat.lt_succ_of_le h.size_le
  readOnly_eq h := h.1.unsealed
  size_eq h := h.1.size_eq
  read_ends := read_ends
  write_ends h hn hroom := (write_ends h hn hroom).mono (fun _ _ hq => hq) fun _ _ => False.elim
  sync_ends h := ends_pure.2 h
  truncate_ends h hn := (truncate_ends h hn).mono (fun _ _ hq => hq) fun _ _ => False.elim

instance : Faithful Disk where
  bytes d := d.content.slice 0 d.size
  bytes_eq h := h.1.bytes
  write_done {d m pos data} h hn := by
    by_cases hroom : pos + data.size < capacity + 1
    · exact (write_ends h hn hroom).mono (fun _ _ => id) fun _ _ => False.elim
    · change Ends (Disk.write pos data) d _ _
      unfold Disk.write
      rw [ends_bind, ends_get, h.1.unsealed, if_neg Bool.false_ne_true, h.1.limit_eq]
      by_cases hpos : capacity < pos
      · rw [if_pos hpos, ends_bind]
        exact ends_refuse.2 trivial
      · rw [if_neg hpos, if_pos hn, if_pos (by omega), ends_bind]
        exact ends_refuse.2 trivial

end Disk

namespace File

/-- Either kind of file. One in memory counts as long as it would have room on a disk. -/
def Shows : File → Medium → Prop
  | .memory d, m => Memory.Shows d m ∧ m.content.size < Disk.capacity + 1
  | .disk d, m => Disk.Shows d m

instance : Lawful File where
  Shows := Shows
  room := Disk.capacity + 1
  fails := False
  room_le := Disk.capacity_lt
  size_lt {f m} h := by
    cases f with
    | memory d => exact h.2
    | disk d => exact Nat.lt_succ_of_le (Disk.Shows.size_le h)
  readOnly_eq {f m} h := by
    cases f with
    | memory d => exact h.1.1
    | disk d => exact h.1.unsealed
  size_eq {f m} h := by
    cases f with
    | memory d => exact congrArg ByteArray.size h.1.2.1
    | disk d => exact h.1.size_eq
  read_ends {f m pos len} h hle := by
    cases f with
    | memory d => exact ends_run_memory ((Memory.read_ends h.1 hle).mono
        (fun _ _ hq => ⟨hq.1, hq.2, h.2⟩) fun _ _ => id)
    | disk d => exact ends_run_disk (Disk.read_ends h hle)
  write_ends {f m pos data} h hn hroom := by
    cases f with
    | memory d =>
      have hlimit := Nat.lt_of_lt_of_le hroom Disk.capacity_lt
      refine ends_run_memory ((Memory.write_ends h.1 hlimit).mono (fun _ _ hq => ⟨hq, ?_⟩)
        fun _ _ => False.elim)
      rw [Medium.content_change, Change.size_apply_write]
      exact Nat.max_lt.2 ⟨h.2, hroom⟩
    | disk d => exact ends_run_disk ((Disk.write_ends h hn hroom).mono (fun _ _ => id)
        fun _ _ => False.elim)
  sync_ends {f m} h := by
    cases f with
    | memory d => exact ends_run_memory ((Memory.sync_ends h.1).mono (fun _ _ hq => ⟨hq, h.2⟩)
        fun _ _ => False.elim)
    | disk d => exact ends_run_disk (ends_pure.2 h)
  truncate_ends {f m n} h hn := by
    cases f with
    | memory d =>
      refine ends_run_memory ((Memory.truncate_ends h.1).mono (fun _ _ hq => ⟨hq, ?_⟩)
        fun _ _ => False.elim)
      rw [Medium.content_change, Change.size_apply_cut]
      exact Nat.lt_of_le_of_lt (Nat.min_le_right _ _) h.2
    | disk d => exact ends_run_disk ((Disk.truncate_ends h hn).mono (fun _ _ => id)
        fun _ _ => False.elim)

end File

end Device

namespace Session

open Device Store

theorem shows_new_disk : Lawful.Shows (Disk.holding {} false) ⟨.empty, []⟩ :=
  ⟨⟨rfl, rfl, fun _ _ => rfl, Nat.le_refl 0, Nat.zero_le _, rfl⟩, rfl⟩

/-- A session can begin on a file that has just been created on the disk. -/
theorem exists_opened_on_disk (allowed : Request → Prop) : ∃ (d : Disk) (v : Store Disk),
    Disk.openFile none false = .ok d ∧ openOn {} d = .ok v ∧ Reachable allowed ⟨v, {}⟩ ∧
      Served ⟨v, {}⟩ ∧ Spacious v := by
  have husable : Settings.Usable {} := ⟨rfl, by decide⟩
  obtain ⟨v, hopen, hreach, hspacious, -⟩ :=
    exists_opened_on shows_new_disk rfl husable (fun h => h) (by decide)
  exact ⟨_, v, rfl, hopen, hreach, .opened (by decide) shows_new_disk rfl hopen, hspacious⟩

/-- Either kind of file will do where all that counts is what the device promises. -/
theorem exists_opened_on_file (allowed : Request → Prop) {f : File}
    (hf : f = .memory {} ∨ f = .disk (Disk.holding {} false)) :
    ∃ v : Store File, openOn {} f = .ok v ∧ Reachable allowed ⟨v, {}⟩ ∧ Spacious v := by
  have hd : Lawful.Shows f ⟨.empty, []⟩ := by
    rcases hf with rfl | rfl
    · exact ⟨shows_empty, by decide⟩
    · exact shows_new_disk
  have husable : Settings.Usable {} := ⟨rfl, by decide⟩
  obtain ⟨v, hopen, hreach, hspacious, -⟩ :=
    exists_opened_on hd rfl husable (fun h => h) (by decide)
  exact ⟨v, hopen, hreach, hspacious⟩

end Session

end BlockStore
