import BlockStore.Device.Traced
import BlockStore.Proofs.Device

namespace BlockStore.Device

open BlockStore.Action Bytes

/-- A device that can be written, whose calls do what they are for or are refused and leave the file
alone. -/
class Fallible (δ : Type) [Device δ] where
  /-- The bytes on the device. -/
  Has : δ → ByteArray → Prop
  room : Nat
  /-- How calls are refused. -/
  refusal : Failure → Prop
  room_le : room ≤ Bytes.limit
  size_lt {d : δ} {b : ByteArray} : Has d b → b.size < room
  readOnly_eq {d : δ} {b : ByteArray} : Has d b → Device.readOnly d = false
  size_eq {d : δ} {b : ByteArray} : Has d b → Device.size d = b.size
  read_ends {d : δ} {b : ByteArray} {pos len : Nat} : Has d b → pos + len ≤ b.size →
    Ends (Device.read pos len) d (fun data t => data = slice b pos len ∧ Has t b)
      fun f t => refusal f ∧ Has t b
  write_ends {d : δ} {b : ByteArray} {pos : Nat} {data : ByteArray} : Has d b →
    0 < data.size → pos + data.size < room → Ends (Device.write pos data) d
      (fun _ t => Has t (Change.apply b (.write pos data))) fun f t => refusal f ∧ Has t b
  sync_ends {d : δ} {b : ByteArray} : Has d b →
    Ends (Device.sync : Action δ Unit) d (fun _ t => Has t b) fun f t => refusal f ∧ Has t b
  truncate_ends {d : δ} {b : ByteArray} {size : Nat} : Has d b → size ≤ b.size →
    Ends (Device.truncate size : Action δ Unit) d (fun _ t => Has t (Change.apply b (.cut size)))
      fun f t => refusal f ∧ Has t b

namespace Lawful

variable {δ : Type} [Device δ] [Lawful δ] {d : δ} {b : ByteArray}

/-- The bytes that a reader of the device sees. -/
def Has (d : δ) (b : ByteArray) : Prop := ∃ m : Medium, Shows d m ∧ m.content = b

instance : Fallible δ where
  Has := Has
  room := room δ
  refusal _ := fails δ
  room_le := room_le
  size_lt := by
    rintro d _ ⟨m, hm, rfl⟩
    exact size_lt hm
  readOnly_eq := by
    rintro d _ ⟨m, hm, rfl⟩
    exact readOnly_eq hm
  size_eq := by
    rintro d _ ⟨m, hm, rfl⟩
    exact size_eq hm
  read_ends := by
    rintro d _ pos len ⟨m, hm, rfl⟩ hle
    exact (read_ends hm hle).mono (fun _ _ h => ⟨h.1, m, h.2, rfl⟩) fun _ _ => False.elim
  write_ends := by
    rintro d _ pos data ⟨m, hm, rfl⟩ hdata hroom
    exact (write_ends hm hdata hroom).mono (fun _ _ h => ⟨_, h, m.content_change _⟩)
      fun _ _ h => ⟨h.1, m, h.2, rfl⟩
  sync_ends := by
    rintro d _ ⟨m, hm, rfl⟩
    exact (sync_ends hm).mono (fun _ _ h => ⟨_, h, m.content_sync⟩) fun _ _ h => ⟨h.1, m, h.2, rfl⟩
  truncate_ends := by
    rintro d _ size ⟨m, hm, rfl⟩ hsize
    exact (truncate_ends hm hsize).mono (fun _ _ h => ⟨_, h, m.content_change _⟩)
      fun _ _ h => ⟨h.1, m, h.2, rfl⟩

end Lawful

namespace Traced

variable {δ ν α : Type} [Device δ] [Fallible δ] {t : Traced δ ν} {b : ByteArray}

/-- A call was refused by the device below or as planned. -/
def Refuses (δ : Type) [Device δ] [Fallible δ] (f : Failure) : Prop :=
  Fallible.refusal δ f ∨ ∃ kind, f = .error (.device (.planned kind))

/-- The call has been written down, and counted if one of its kind is to fail. -/
structure Called (t : Traced δ ν) (c : Call) (u : Traced δ ν) : Prop where
  inner : u.inner = t.inner
  log : u.log = t.log.push (.call c)
  plan : ∀ kind, t.plan kind = none → u.plan kind = none

omit [Device δ] [Fallible δ] in
/-- A call either reaches the device below or is refused as planned. -/
theorem ends_step {c : Call} {act : Action δ α} {Q : α → Traced δ ν → Prop}
    {E : Failure → Traced δ ν → Prop}
    (hplanned : t.plan c.kind ≠ none → ∀ u, Called t c u →
      E (.error (.device (.planned c.kind))) u)
    (hpass : ∀ u, Called t c u → Ends act t.inner (fun a d => Q a { u with inner := d })
      fun f d => E f { u with inner := d }) : Ends (step c act) t Q E := by
  have hcounted (count : Option Nat) (hplan : t.plan c.kind ≠ none) : Called t c
      (({ t with log := t.log.push (.call c) } : Traced δ ν).failAfter c.kind count) :=
    ⟨rfl, rfl, fun kind hkind =>
      (if_neg fun heq : kind = c.kind => hplan (heq ▸ hkind)).trans hkind⟩
  have hreach (u : Traced δ ν) (hu : Called t c u) :
      Ends (.within inner (fun t d => { t with inner := d }) act) u Q E := by
    rw [ends_within, hu.inner]
    exact hpass u hu
  unfold step
  rw [ends_bind, ends_modify, ends_bind, ends_get]
  dsimp only
  rcases hplan : t.plan c.kind with _ | _ | n
  · exact hreach _ ⟨rfl, rfl, fun _ h => h⟩
  · have hsome : t.plan c.kind ≠ none := by rw [hplan]; exact nofun
    rw [ends_bind, ends_modify, ends_bind]
    exact ends_refuse.2 (hplanned hsome _ (hcounted none hsome))
  · rw [ends_bind, ends_modify]
    exact hreach _ (hcounted (some n) (by rw [hplan]; exact nofun))

theorem step_ends {c : Call} {act : Action δ α} {Q : α → δ → Prop} {b : ByteArray}
    (hb : Fallible.Has t.inner b)
    (h : Ends act t.inner Q fun f d => Fallible.refusal δ f ∧ Fallible.Has d b) :
    Ends (step c act) t (fun a t' => Q a t'.inner)
      fun f t' => Refuses δ f ∧ Fallible.Has t'.inner b :=
  ends_step (fun _ _ hu => ⟨.inr ⟨c.kind, rfl⟩, hu.inner ▸ hb⟩) fun _ _ =>
    h.mono (fun _ _ hq => hq) fun _ _ hf => ⟨.inl hf.1, hf.2⟩

instance : Fallible (Traced δ ν) where
  Has t b := Fallible.Has t.inner b
  room := Fallible.room δ
  refusal := Refuses δ
  room_le := Fallible.room_le
  size_lt := Fallible.size_lt
  readOnly_eq := Fallible.readOnly_eq
  size_eq := Fallible.size_eq
  read_ends h hle := step_ends h (Fallible.read_ends h hle)
  write_ends h hdata hroom := step_ends h (Fallible.write_ends h hdata hroom)
  sync_ends h := step_ends h (Fallible.sync_ends h)
  truncate_ends h hsize := step_ends h (Fallible.truncate_ends h hsize)

end Traced

end BlockStore.Device
