import BlockStore.Proofs.Constancy
import BlockStore.Proofs.Fallible

namespace BlockStore.Device

open BlockStore.Action

/-- A device whose bytes can be told and whose calls, if they succeed, do what they are for. A call
that fails may leave anything behind, unless it was to read.

A file on disk is not such a device, as it counts its size apart from its bytes: an empty write far
behind its end raises the count alone. It is lawful all the same, since the store makes no such
write. -/
class Plain (δ : Type) [Device δ] where
  bytes : δ → ByteArray
  size_eq (d : δ) : Device.size d = (bytes d).size
  read_fixes (pos len : Nat) : Fixes bytes (Device.read pos len : Action δ ByteArray)
  write_done (d : δ) (pos : Nat) (data : ByteArray) : Ends (Device.write pos data) d
    (fun _ t => bytes t = Change.apply (bytes d) (.write pos data)) Any
  sync_done (d : δ) : Ends (Device.sync : Action δ Unit) d (fun _ t => bytes t = bytes d) Any

instance : Plain Memory where
  bytes := Memory.bytes
  size_eq _ := rfl
  read_fixes pos len := by
    change Fixes _ (Memory.read pos len)
    unfold Memory.read
    refine .bind fixes_get fun m => ?_
    exact .bind (fixes_checked _) fun stop => .ite (fixes_refuse _) (fixes_pure _)
  write_done m pos data := by
    change Ends (Memory.write pos data) m _ _
    unfold Memory.write
    rw [ends_bind, ends_get]
    split
    · rw [ends_bind]
      exact ends_refuse.2 trivial
    rw [ends_bind]
    refine ends_of_checked fun stop hstop => ?_
    obtain ⟨-, rfl⟩ := word64_eq_ok.1 hstop
    rw [ends_bind]
    exact ends_of_checked fun _ _ => ends_modify.2 rfl
  sync_done m := ends_modify.2 rfl

instance : Plain Medium where
  bytes := Medium.content
  size_eq _ := rfl
  read_fixes _ _ := .bind fixes_get fun _ => .ite (fixes_refuse _) (fixes_pure _)
  write_done m pos data := ends_modify.2 (m.content_change (.write pos data))
  sync_done m := ends_modify.2 m.content_sync

namespace Traced

variable {δ ν α ρ : Type} {c : Call} {act : Action δ α}

/-- A call is passed on, or refused without having had any effect. -/
theorem step_fixes {view : δ → ρ} (h : Fixes view act) :
    Fixes (fun t : Traced δ ν => view t.inner) (step c act) := by
  have hpass : Fixes (fun t : Traced δ ν => view t.inner)
      (.within inner (fun t d => { t with inner := d }) act) := fixes_within fun t => h t.inner
  unfold step
  refine .bind (fixes_modify fun _ => rfl) fun _ => ?_
  refine .bind fixes_get fun t => ?_
  dsimp only
  split
  · exact .bind (fixes_modify fun _ => rfl) fun _ => .bind (fixes_refuse _) fun _ => hpass
  · exact .bind (fixes_modify fun _ => rfl) fun _ => hpass
  · exact hpass

theorem step_done {t : Traced δ ν} {Q : α → δ → Prop} (h : Ends act t.inner Q Any) :
    Ends (step c act) t (fun a t' => Q a t'.inner) Any :=
  ends_step (fun _ _ _ => trivial) fun _ _ => h

instance [Device δ] [Plain δ] : Plain (Traced δ ν) where
  bytes t := Plain.bytes t.inner
  size_eq t := Plain.size_eq t.inner
  read_fixes pos len := step_fixes (Plain.read_fixes pos len)
  write_done t pos data := step_done (Plain.write_done t.inner pos data)
  sync_done t := step_done (Plain.sync_done t.inner)

end Traced

end BlockStore.Device
