import BlockStore.Device

namespace BlockStore.Device

inductive Entry (ν : Type)
  | call (c : Call)
  | note (n : ν)

/-- A device that writes down every call before it passes it on, and can be told to fail one call
of each kind. -/
structure Traced (δ ν : Type) where
  inner : δ
  log : Array (Entry ν) := #[]
  /-- How many calls of a kind still pass before one fails. -/
  plan : Kind → Option Nat := fun _ => none

namespace Traced

variable {δ ν α : Type}

def note (n : ν) : Action (Traced δ ν) Unit := modify fun t => { t with log := t.log.push (.note n) }

def failAfter (t : Traced δ ν) (kind : Kind) (count : Option Nat) : Traced δ ν :=
  { t with plan := fun k => if k = kind then count else t.plan k }

def step (c : Call) (act : Action δ α) : Action (Traced δ ν) α := do
  modify fun t => { t with log := t.log.push (.call c) }
  match (← get).plan c.kind with
  | some 0 =>
    modify (·.failAfter c.kind none)
    .refuse (.device (.planned c.kind))
  | some (n + 1) => modify (·.failAfter c.kind (some n))
  | none => pure ()
  .within inner (fun t d => { t with inner := d }) act

instance [Device δ] : Device (Traced δ ν) where
  read pos len := step (.read pos len) (Device.read pos len)
  write pos data := step (.write pos data.size) (Device.write pos data)
  sync := step .sync Device.sync
  truncate size := step (.truncate size) (Device.truncate size)
  size t := Device.size t.inner
  readOnly t := Device.readOnly t.inner

end Traced

end BlockStore.Device
