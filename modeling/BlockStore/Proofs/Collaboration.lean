import BlockStore.Proofs.Catalog
import BlockStore.Proofs.Recorder
import BlockStore.Store

namespace BlockStore

open BlockStore.Action Device

variable {δ κ : Type} [Device δ]

/-- What a keeper makes of an engine while it is served: it gets blocks for chunks as long as it has
not given any back, writes chunks to such blocks only, and else writes nothing but the header. -/
inductive Engine.Serves (e : Engine (Recorder δ)) :
    Bool → List (Chunk × ByteArray) → Engine (Recorder δ) → Prop
  | start : Serves e false [] e
  | allocate {placed : List (Chunk × ByteArray)} {e₁ e₂ : Engine (Recorder δ)} {c : Chunk}
      {buf : ByteArray} {p : Chunk × ByteArray} : Serves e false placed e₁ →
      Engine.allocateFor c buf e₁ = (.ok p, e₂) → Serves e false (p :: placed) e₂
  | write {freed : Bool} {placed : List (Chunk × ByteArray)} {e₁ e₂ : Engine (Recorder δ)}
      {p : Chunk × ByteArray} : Serves e freed placed e₁ → p ∈ placed →
      Engine.writeChunk p.1 p.2 e₁ = (.ok (), e₂) → Serves e freed placed e₂
  | free {freed : Bool} {placed : List (Chunk × ByteArray)} {e₁ e₂ : Engine (Recorder δ)}
      {c : Chunk} : Serves e freed placed e₁ →
      Engine.freeChunk c e₁ = (.ok (), e₂) → Serves e true placed e₂
  | header {freed : Bool} {placed : List (Chunk × ByteArray)} {e₁ e₂ : Engine (Recorder δ)}
      {pos : Nat} {data : ByteArray} : Serves e freed placed e₁ → ¬IsChunk data →
      pos + data.size ≤ headerBytes → Engine.write pos data e₁ = (.ok (), e₂) →
      Serves e freed placed e₂
  | idle {freed : Bool} {placed : List (Chunk × ByteArray)} {e₁ e₂ : Engine (Recorder δ)} :
      Serves e freed placed e₁ → e₁.Idle e₂ → Serves e freed placed e₂

namespace Keeper

/-- The keeper answers from its records, knows each chunk by its id, and takes note of a move without
getting or giving back any blocks. -/
structure Registers (δ κ : Type) [Device δ] [Keeper (Recorder δ) κ] (Sound : κ → Prop) : Prop where
  lookup {v w : Volume (Recorder δ) κ} : v.records = w.records → v.chunk? = w.chunk?
  id_eq {v : Volume (Recorder δ) κ} {id : UInt32} {c : Chunk} : v.chunk? id = some c → c.id = id
  listed {v : Volume (Recorder δ) κ} {c : Chunk} : Sound v.records → c ∈ v.chunks →
    v.chunk? c.id = some c
  nodup {v : Volume (Recorder δ) κ} : Sound v.records → (v.chunks.map Chunk.id).Nodup
  register {v : Volume (Recorder δ) κ} {c : Chunk} : Sound v.records →
    Ends (Volume.register c) v (fun _ w => Sound w.records ∧ v.engine.Serves false [] w.engine ∧
      (∀ id, id ≠ c.id → w.chunk? id = v.chunk? id) ∧
      ((v.chunk? c.id).isSome → w.chunk? c.id = some c)) Any

/-- To store the records it may place chunks of new ids and then give blocks back. -/
structure Collaborates (δ κ : Type) [Device δ] [Keeper (Recorder δ) κ] (Sound : κ → Prop) : Prop
    extends Registers δ κ Sound where
  store {v : Volume (Recorder δ) κ} : Sound v.records → v.engine.occupancy.blockSize = blockSize →
    Ends (Volume.store : Action (Volume (Recorder δ) κ) Unit) v (fun _ w => Sound w.records ∧
      (∃ freed placed, v.engine.Serves freed placed w.engine) ∧
      ∀ id c, w.chunk? id = some c → v.chunk? id = some c ∨ v.chunk? id = none) Any

end Keeper

/-- Stores the records and then leaves a note of the blocks in use. -/
def Volume.storeNoting [Keeper (Recorder δ) κ] : Action (Volume (Recorder δ) κ) Unit := do
  store
  let used := (← get).engine.occupancy.used
  onEngine (Engine.onDevice (Recorder.note (.stored used)))

/-- Records whose keeper leaves a note on the device each time it has stored them. -/
def Watched (κ : Type) : Type := κ

instance [K : Keeper (Recorder δ) κ] : Keeper (Recorder δ) (Watched κ) where
  chunks := K.chunks
  chunk? := K.chunk?
  root? := K.root?
  register := K.register
  store := Volume.storeNoting (κ := κ)

namespace Keeper.Collaborates

variable [Keeper (Recorder δ) κ] {Sound : κ → Prop}

theorem watched (h : Collaborates δ κ Sound) : Registers δ (Watched κ) Sound :=
  ⟨h.lookup, h.id_eq, h.listed, h.nodup, h.register⟩

theorem storeNoting_ends (h : Collaborates δ κ Sound) {v : Volume (Recorder δ) κ}
    (hs : Sound v.records) (hb : v.engine.occupancy.blockSize = blockSize) :
    Ends Volume.storeNoting v (fun _ w => Sound w.records ∧
      (∃ freed placed e, v.engine.Serves freed placed e ∧ w.engine.occupancy = e.occupancy ∧
        w.engine.device.log = e.device.log ++ [.stored w.engine.occupancy.used]) ∧
      ∀ id c, w.chunk? id = some c → v.chunk? id = some c ∨ v.chunk? id = none) Any := by
  unfold Volume.storeNoting
  refine (h.store hs hb).bind ?_ fun _ _ hf => hf
  rintro _ w ⟨hsound, ⟨freed, placed, hserves⟩, hfound⟩
  have hsame (e : Engine (Recorder δ)) :
      (⟨e, w.records⟩ : Volume (Recorder δ) κ).chunk? = w.chunk? := h.lookup rfl
  rw [ends_bind, ends_get, Volume.onEngine, ends_within, Engine.onDevice, ends_within,
    Recorder.note, ends_modify]
  refine ⟨hsound, ⟨freed, placed, w.engine, hserves, rfl, rfl⟩, fun id c hc => hfound id c ?_⟩
  rwa [hsame] at hc

end Keeper.Collaborates

end BlockStore
