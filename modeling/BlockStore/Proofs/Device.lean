import BlockStore.Device.Memory
import BlockStore.Proofs.Action
import BlockStore.Proofs.Medium
import BlockStore.Proofs.Occupancy

namespace BlockStore.Device

open BlockStore.Action Bytes

/-- A device that can be written and keeps to the meaning of its calls on files below a size. If its
calls may fail at all, a call that fails leaves the file alone. -/
class Lawful (δ : Type) [Device δ] where
  /-- The device stands for the file. -/
  Shows : δ → Medium → Prop
  room : Nat
  fails : Prop
  room_le : room ≤ Bytes.limit
  size_lt {d : δ} {m : Medium} : Shows d m → m.content.size < room
  readOnly_eq {d : δ} {m : Medium} : Shows d m → Device.readOnly d = false
  size_eq {d : δ} {m : Medium} : Shows d m → Device.size d = m.content.size
  read_ends {d : δ} {m : Medium} {pos len : Nat} : Shows d m → pos + len ≤ m.content.size →
    Ends (Device.read pos len) d (fun data t => data = slice m.content pos len ∧ Shows t m)
      fun _ _ => False
  write_ends {d : δ} {m : Medium} {pos : Nat} {data : ByteArray} : Shows d m →
    0 < data.size → pos + data.size < room → Ends (Device.write pos data) d
      (fun _ t => Shows t (m.change (.write pos data))) fun _ t => fails ∧ Shows t m
  sync_ends {d : δ} {m : Medium} : Shows d m →
    Ends (Device.sync : Action δ Unit) d (fun _ t => Shows t m.sync) fun _ t => fails ∧ Shows t m
  truncate_ends {d : δ} {m : Medium} {size : Nat} : Shows d m → size ≤ m.content.size →
    Ends (Device.truncate size : Action δ Unit) d (fun _ t => Shows t (m.change (.cut size)))
      fun _ t => fails ∧ Shows t m

/-- A file that shows what a crash would make of it, and lets every call through. -/
instance : Device Medium where
  read pos len := do
    let m ← get
    if m.content.size < pos + len then .refuse (.device .incomplete)
    return slice m.content pos len
  write pos data := modify (·.change (.write pos data))
  sync := modify Medium.sync
  truncate size := modify (·.change (.cut size))
  size m := m.content.size
  readOnly _ := false

instance : Lawful Medium where
  Shows m m' := m = m' ∧ m.Below Bytes.limit
  room := Bytes.limit
  fails := False
  room_le := Nat.le_refl _
  size_lt h := h.1 ▸ h.2.content
  readOnly_eq _ := rfl
  size_eq h := h.1 ▸ rfl
  read_ends := by
    rintro m _ pos len ⟨rfl, hs⟩ hle
    change Ends (do
      let m ← get
      if m.content.size < pos + len then .refuse (.device .incomplete)
      return slice m.content pos len) m _ _
    rw [ends_bind, ends_get, if_neg (by omega)]
    exact ends_pure.2 ⟨rfl, rfl, hs⟩
  write_ends := by
    rintro m _ pos data ⟨rfl, hs⟩ - hroom
    exact ends_modify.2 ⟨rfl, hs.change hroom⟩
  sync_ends := by
    rintro m _ ⟨rfl, hs⟩
    exact ends_modify.2 ⟨rfl, hs.sync⟩
  truncate_ends := by
    rintro m _ size ⟨rfl, hs⟩ -
    exact ends_modify.2 ⟨rfl, hs.change trivial⟩

/-- Such a file of which each call that changes or syncs it uses up one of `left`: once none is left
all of them fail. -/
structure Journal where
  medium : Medium
  left : Nat

namespace Journal

def spend (f : Medium → Medium) : Action Journal Unit := do
  let j ← get
  if j.left = 0 then .refuse (.device .incomplete)
  set { medium := f j.medium, left := j.left - 1 : Journal }

instance : Device Journal where
  read pos len := do
    let j ← get
    if j.medium.content.size < pos + len then .refuse (.device .incomplete)
    return slice j.medium.content pos len
  write pos data := spend (·.change (.write pos data))
  sync := spend Medium.sync
  truncate size := spend (·.change (.cut size))
  size j := j.medium.content.size
  readOnly _ := false

variable {j : Journal} {m : Medium}

theorem spend_ends {P : Medium → Prop} {f : Medium → Medium} (hm : P j.medium)
    (hf : P (f j.medium)) (hj : j.medium = m) :
    Ends (spend f) j (fun _ t => t.medium = f m ∧ P t.medium)
      fun _ t => True ∧ t.medium = m ∧ P t.medium := by
  subst hj
  unfold spend
  rw [ends_bind, ends_get]
  split
  · exact ends_refuse.2 ⟨trivial, rfl, hm⟩
  · exact ends_iff.2 ⟨rfl, hf⟩

instance : Lawful Journal where
  Shows j m := j.medium = m ∧ j.medium.Below Bytes.limit
  room := Bytes.limit
  fails := True
  room_le := Nat.le_refl _
  size_lt h := h.1 ▸ h.2.content
  readOnly_eq _ := rfl
  size_eq h := h.1 ▸ rfl
  read_ends := by
    rintro j m pos len ⟨rfl, hs⟩ hle
    change Ends (do
      let j ← get
      if j.medium.content.size < pos + len then .refuse (.device .incomplete)
      return slice j.medium.content pos len) j _ _
    rw [ends_bind, ends_get, if_neg (by omega)]
    exact ends_pure.2 ⟨rfl, rfl, hs⟩
  write_ends := by
    rintro j m pos data ⟨hj, hs⟩ - hroom
    exact spend_ends (P := fun n => n.Below Bytes.limit) hs (hs.change hroom) hj
  sync_ends h := spend_ends (P := fun n => n.Below Bytes.limit) h.2 h.2.sync h.1
  truncate_ends := by
    rintro j m size ⟨hj, hs⟩ -
    exact spend_ends (P := fun n => n.Below Bytes.limit) hs (hs.change trivial) hj

end Journal

namespace Memory

variable {d : Memory} {m : Medium} {pos len size : Nat} {data : ByteArray}

/-- The file in memory, whose syncs are not needed to keep its bytes. -/
def Shows (d : Memory) (m : Medium) : Prop :=
  d.sealed = false ∧ d.bytes = m.content ∧ m.content.size < Bytes.limit

theorem limit_lt : Bytes.limit < UInt64.size := by decide

theorem read_ends (h : Shows d m) (hle : pos + len ≤ m.content.size) :
    Ends (Memory.read pos len) d (fun data t => data = slice m.content pos len ∧ Shows t m)
      fun _ _ => False := by
  have hlim := limit_lt
  obtain ⟨hs, hb, hm⟩ := h
  unfold Memory.read
  rw [ends_bind, ends_get, ends_bind, ends_checked (word64_of_lt (by omega)), hb,
    if_neg (by omega)]
  exact ends_pure.2 ⟨rfl, hs, hb, hm⟩

theorem write_ends (h : Shows d m) (hroom : pos + data.size < Bytes.limit) :
    Ends (Memory.write pos data) d (fun _ t => Shows t (m.change (.write pos data)))
      fun _ _ => False := by
  have hlim := limit_lt
  obtain ⟨hs, hb, hm⟩ := h
  unfold Memory.write
  rw [ends_bind, ends_get, hs, if_neg Bool.false_ne_true, ends_bind,
    ends_checked (word64_of_lt (by omega)), ends_bind, ends_checked (room_eq_ok.2 hroom),
    ends_modify]
  refine ⟨hs, by rw [Medium.content_change, ← hb]; rfl, ?_⟩
  rw [Medium.content_change, Change.size_apply_write]
  omega

theorem sync_ends (h : Shows d m) :
    Ends Memory.sync d (fun _ t => Shows t m.sync) fun _ _ => False := ends_modify.2 h

theorem truncate_ends (h : Shows d m) : Ends (Memory.truncate size) d
    (fun _ t => Shows t (m.change (.cut size))) fun _ _ => False := by
  obtain ⟨hs, hb, hm⟩ := h
  unfold Memory.truncate
  rw [ends_bind, ends_get, hs, if_neg Bool.false_ne_true, ends_modify]
  refine ⟨hs, by rw [Medium.content_change, ← hb]; rfl, ?_⟩
  rw [Medium.content_change, Change.size_apply_cut]
  omega

instance : Lawful Memory where
  Shows := Shows
  room := Bytes.limit
  fails := False
  room_le := Nat.le_refl _
  size_lt h := h.2.2
  readOnly_eq h := h.1
  size_eq h := congrArg ByteArray.size h.2.1
  read_ends := read_ends
  write_ends h _ hroom := (write_ends h hroom).mono (fun _ _ hq => hq) fun _ _ => False.elim
  sync_ends h := (sync_ends h).mono (fun _ _ hq => hq) fun _ _ => False.elim
  truncate_ends h _ := (truncate_ends h).mono (fun _ _ hq => hq) fun _ _ => False.elim

end Memory

end BlockStore.Device
