import BlockStore.Proofs.Constancy
import BlockStore.Proofs.Outcome

namespace BlockStore

open BlockStore.Action

/-- The record of a chunk that was made for `p`. -/
structure Chunk.MadeFor (c : Chunk) (id : UInt32) (p : ByteArray) : Prop where
  id_eq : c.id = id
  size_lt : p.size < UInt32.size
  len_eq : c.len.toNat = Chunk.blocksFor p.size
  size_eq : c.size.toNat = p.size

namespace Catalog

/-- What the steps of a commit or a compaction do to the records, whatever becomes of them. -/
inductive Upkeep (k : Catalog) : Catalog → Prop
  | issue (h : k.nextId.toNat + 1 < UInt32.size) : Upkeep k { k with nextId := k.nextId + 1 }
  | commit {root : Chunk} {p : ByteArray} {version : UInt64} (h : k.nextId.toNat + 1 < UInt32.size)
      (hroot : root.MadeFor k.nextId p) : Upkeep k { k with
        nextId := k.nextId + 1, root := some root, removed := [], version, dirty := false }
  | moveRoot {c : Chunk} {block : UInt64} (hc : k.find? c.id = some c)
      (hroot : k.root.any (·.id = c.id)) : Upkeep k { k with root := some { c with block, next := 0 } }
  | moveData {c : Chunk} {block : UInt64} (hc : k.find? c.id = some c)
      (hdata : (k.data.find? c.id).isSome) :
      Upkeep k { k with data := k.data.insert { c with block, next := 0 }, dirty := true }

/-- What a request that leaves the file open does to the records, step by step. -/
inductive Step (k : Catalog) : Catalog → Prop
  | upkeep {k' : Catalog} (h : Upkeep k k') : Step k k'
  | add {c : Chunk} {p : ByteArray} (h : k.nextId.toNat + 1 < UInt32.size)
      (hc : c.MadeFor k.nextId p) : Step k { k with
        nextId := k.nextId + 1, data := k.data.insert c, dirty := true }
  | drop {c : Chunk} (hc : k.data.find? c.id = some c) : Step k { k with
      data := k.data.erase c.id, removed := k.removed ++ [c], dirty := true }

end Catalog

namespace Engine

variable {δ : Type} [Device δ] {e : Engine δ} {c : Chunk} {p buf : ByteArray} {r : Reserved}

theorem allocateFor_record : Ends (allocateFor c buf) e
    (fun a _ => ∃ block next, a.1 = { c with block, next }) Any := by
  unfold allocateFor
  rw [ends_bind, ends_get]
  by_cases hro : e.readOnly = true
  · rw [if_pos hro, ends_bind]
    exact ends_refuse.2 trivial
  rw [if_neg hro]
  by_cases hsize : buf.size ≠ c.byteLen ∨ c.byteLen = 0
  · rw [if_pos hsize, ends_bind]
    exact ends_refuse.2 trivial
  rw [if_neg hsize, ends_bind]
  refine ends_of_except fun payload _ => ends_bind.2 (ends_any fun pos e₁ => ?_)
  have hplaced (next : UInt64) (e₂ : Engine δ) : Ends (do
      let framed ← liftM (Frame.write buf { c with block := (pos / blockSize).toUInt64, next } payload)
      checkPlaced { c with block := (pos / blockSize).toUInt64, next }
      return (({ c with block := (pos / blockSize).toUInt64, next } : Chunk), framed)) e₂
        (fun a _ => ∃ block next, a.1 = { c with block, next }) Any :=
    ends_bind.2 (ends_any fun _ _ => ends_bind.2 (ends_any fun _ _ => ends_pure.2 ⟨_, _, rfl⟩))
  dsimp only
  split
  · exact ends_bind.2 (ends_get.2 (ends_bind.2 (ends_any fun _ _ => hplaced _ _)))
  · exact ends_bind.2 (ends_pure.2 (hplaced _ _))

/-- A payload that is placed gets the least number of blocks. -/
theorem place_makes : Ends (place c p) e (fun placed _ => placed.MadeFor c.id p) Any := by
  by_cases hp : p.size < UInt32.size
  · refine place_of_framed hp (fun _ _ _ h => h) (fun _ _ _ h => h) fun pool => ?_
    refine allocateFor_record.bind ?_ fun _ _ h => h
    rintro ⟨placed, framed⟩ e₁ ⟨block, next, rfl⟩
    dsimp only
    rw [ends_bind]
    have hid : (c.holding p).id = c.id := by rw [Chunk.holding]
    refine ends_any fun _ _ => ends_pure.2 ⟨hid, hp, Chunk.len_holding c hp, ?_⟩
    have hlt : p.size < UInt64.size := Nat.lt_trans hp (by decide)
    exact UInt64.toNat_ofNat_of_lt' hlt
  · unfold place
    refine ends_bind.2 (ends_of_checked fun len _ => ?_)
    rw [if_pos (Nat.le_of_not_lt hp), ends_bind]
    exact ends_refuse.2 trivial

theorem copy_record : Ends (copy c r) e
    (fun moved _ => ∃ block, moved = { c with block, next := 0 }) Any := by
  unfold copy
  refine ends_bind.2 (ends_any fun ⟨head, source⟩ e₁ => ?_)
  refine ends_bind.2 (ends_any fun buf e₂ => ends_bind.2 (ends_of_checked fun framed _ => ?_))
  refine ends_bind.2 (ends_any fun pos e₃ => ?_)
  dsimp only
  split
  · exact ends_bind.2 (ends_throw.2 trivial)
  refine ends_bind.2 (ends_of_checked fun framed' _ => ?_)
  refine (ends_any (Q := fun _ _ => True) fun _ _ => trivial).attempted (fun _ _ _ => ?_) fun _ _ => ?_
  · exact ends_bind.2 (ends_any fun _ _ => ends_pure.2 ⟨_, rfl⟩)
  · exact ends_bind.2 (ends_any fun _ _ => ends_refusing)

end Engine

namespace Store

open Engine Relation

variable {δ : Type} [Device δ] {v : Store δ} {c : Chunk} {block : UInt64}

/-- What comes of the records, whether the action succeeds or not. -/
theorem commit_upkeep (v : Store δ) :
    Ends commit v (fun _ w => ReflTransGen Catalog.Upkeep v.records w.records)
      fun _ w => ReflTransGen Catalog.Upkeep v.records w.records := by
  have hissued (hlt : v.records.nextId.toNat + 1 < UInt32.size) :=
    ReflTransGen.single (Catalog.Upkeep.issue hlt)
  refine commit_of_root (fun _ => .refl) (fun _ => .refl) (fun hlt _ => hissued hlt)
    fun _ hlt _ => ?_
  refine place_makes.bind (fun root e₁ hroot => ?_) fun _ _ _ => hissued hlt
  have hpublished : Ends (publishRoot (v.records.version + 1) root) e₁
      (fun last _ => last = root) Any :=
    ends_bind.2 (ends_any fun _ _ => ends_bind.2 (ends_any fun _ _ =>
      ends_bind.2 (ends_any fun _ _ => ends_pure.2 rfl)))
  refine hpublished.mono ?_ fun _ _ _ => hissued hlt
  rintro _ e₂ rfl
  unfold adoptRoot
  rw [ends_bind, ends_modify, ends_bind, Volume.onEngine, ends_within]
  exact ⟨fun _ _ _ => ends_pure.2 (.single (.commit hlt hroot)),
    fun _ _ _ => .single (.commit hlt hroot)⟩

theorem register_upkeep (hc : v.records.find? c.id = some c) :
    Ends (register { c with block, next := 0 }) v
      (fun _ w => ReflTransGen Catalog.Upkeep v.records w.records)
      fun _ w => ReflTransGen Catalog.Upkeep v.records w.records := by
  unfold register
  rw [ends_bind, ends_get]
  dsimp only
  split
  · next hroot =>
    rw [ends_bind, ends_modify, Volume.onEngine, ends_within]
    exact ⟨fun _ _ _ => .single (.moveRoot hc hroot), fun _ _ _ => .single (.moveRoot hc hroot)⟩
  · split
    · next hdata => exact ends_modify.2 (.single (.moveData hc hdata))
    · exact ends_pure.2 .refl

theorem move_upkeep (v : Store δ) (id : UInt32) (r : Reserved) :
    Ends (Volume.move id r) v (fun _ w => ReflTransGen Catalog.Upkeep v.records w.records)
      fun _ w => ReflTransGen Catalog.Upkeep v.records w.records := by
  have hrelocate {c : Chunk} {e : Engine δ} : Ends (do
      let moved ← copy c r
      freeChunk c
      return moved) e (fun moved _ => ∃ block, moved = { c with block, next := 0 }) Any :=
    ends_bind.2 (copy_record.mono (fun _ _ h => ends_bind.2 (ends_any fun _ _ => ends_pure.2 h))
      fun _ _ h => h)
  unfold Volume.move
  rw [ends_bind, ends_get]
  cases hfind : v.chunk? id with
  | none => exact ends_pure.2 .refl
  | some c =>
    have hc : v.records.find? c.id = some c := by
      rw [Catalog.id_of_find? hfind]
      exact hfind
    dsimp only
    rw [ends_bind, Volume.onEngine, ends_within]
    refine hrelocate.mono ?_ fun _ _ _ => .refl
    rintro _ e₁ ⟨block, rfl⟩
    refine (register_upkeep (v := ⟨e₁, v.records⟩) hc).bind (fun _ _ h => ends_pure.2 h) fun _ _ h => h

/-- A compaction does nothing else to the records either. -/
theorem lasting_upkeep (k : Catalog) :
    Lasting (fun _ => True) fun v : Store δ => ReflTransGen Catalog.Upkeep k v.records where
  sync _ h := h
  trim _ h := h
  reserve _ _ h := h
  commit := preserves_iff.2 fun v h =>
    (commit_upkeep v).mono (fun _ _ hw => h.trans hw) fun _ _ hw => h.trans hw
  move r _ := preserves_iff.2 fun v h =>
    (move_upkeep v _ r).mono (fun _ _ hw => h.trans hw) fun _ _ hw => h.trans hw
  root _ _ := trivial

theorem write_step (v : Store δ) (payload : ByteArray) :
    Ends (write payload) v (fun c w => c.MadeFor v.records.nextId payload ∧
        v.records.Step w.records)
      fun _ w => ReflTransGen Catalog.Step v.records w.records := by
  have hissued (hlt : v.records.nextId.toNat + 1 < UInt32.size) :=
    ReflTransGen.single (Catalog.Step.upkeep (.issue hlt))
  refine write_of_place (fun _ => .refl) (fun _ => .refl) (fun hlt _ => hissued hlt) fun _ hlt _ => ?_
  exact place_makes.mono (fun _ _ hc => ⟨hc, .add hlt hc⟩) fun _ _ _ => hissued hlt

theorem remove_step (v : Store δ) (id : UInt32) :
    Ends (remove id) v (fun _ w => v.records.Step w.records) fun _ w => w.records = v.records := by
  unfold remove guardWritable
  rw [ends_bind, ends_bind, ends_get]
  split
  · exact ends_refuse.2 rfl
  rw [ends_pure, ends_bind, ends_get]
  cases hfind : v.records.data.find? id with
  | none => exact ends_refuse.2 rfl
  | some c =>
    obtain ⟨-, rfl⟩ := Roster.find?_eq_some.1 hfind
    exact ends_modify.2 (.drop hfind)

theorem read_records (v : Store δ) (id : UInt32) :
    Ends (read id) v (fun _ w => w.records = v.records) fun _ w => w.records = v.records := by
  unfold read
  rw [ends_bind, ends_get]
  cases v.records.find? id with
  | none => exact ends_refuse.2 rfl
  | some c =>
    dsimp only
    rw [ends_bind, Volume.onEngine, ends_within]
    exact ⟨fun _ _ _ => ends_pure.2 rfl, fun _ _ _ => rfl⟩

theorem close_upkeep (v : Store δ) :
    Ends close v (fun _ w => ReflTransGen Catalog.Upkeep v.records w.records)
      fun _ w => ReflTransGen Catalog.Upkeep v.records w.records := by
  have htrim {k : Catalog} (w : Store δ) (h : ReflTransGen Catalog.Upkeep k w.records) :
      Ends (Volume.onEngine do
        discard (shrink (← get).settings.shrinkFrom)
        Engine.sync) w (fun _ u => ReflTransGen Catalog.Upkeep k u.records)
        fun _ u => ReflTransGen Catalog.Upkeep k u.records := by
    rw [Volume.onEngine, ends_within]
    exact ⟨fun _ _ _ => h, fun _ _ _ => h⟩
  unfold close
  rw [ends_bind, ends_get]
  split
  · exact ends_pure.2 .refl
  rw [ends_bind, ends_get]
  split
  · exact ((commit_upkeep v).discard).bind (fun _ w h => htrim w h) fun _ _ h => h
  · exact htrim v .refl

end Store

namespace Request

open Store Relation

variable {δ : Type} [Device δ] {q : Request}

theorem run_upkeep (hc : q.Compacts) (v : Store δ) :
    ReflTransGen Catalog.Upkeep v.records (q.run v).2.records :=
  run_preserves_of_compacts (lasting_upkeep v.records) (fun _ => trivial) hc v .refl

/-- Whatever becomes of a request, the records change by these steps alone. -/
theorem run_steps (hq : q.Stays) (v : Store δ) :
    ReflTransGen Catalog.Step v.records (q.run v).2.records := by
  have hlift {k k' : Catalog} (h : ReflTransGen Catalog.Upkeep k k') :
      ReflTransGen Catalog.Step k k' :=
    ReflTransGen.mono (fun _ _ => Catalog.Step.upkeep) _ _ h
  by_cases hc : q.Compacts
  · exact hlift (run_upkeep hc v)
  suffices h : Ends q.run v (fun _ w => ReflTransGen Catalog.Step v.records w.records)
      fun _ w => ReflTransGen Catalog.Step v.records w.records from ends_always.1 h
  cases q with
  | write payload =>
    exact (write_step v payload).bind (fun _ _ h => ends_pure.2 (.single h.2)) fun _ _ h => h
  | read id =>
    unfold run
    rw [ends_bind, ends_attempt]
    refine (read_records v id).mono (fun _ _ h => ends_pure.2 (h ▸ .refl)) fun f _ h => ?_
    cases f with
    | fault f => exact h ▸ .refl
    | error e => exact ends_pure.2 (h ▸ .refl)
  | remove id =>
    unfold run
    rw [ends_bind, ends_attempt]
    refine (remove_step v id).mono (fun _ _ h => ends_pure.2 (.single h)) fun f _ h => ?_
    cases f with
    | fault f => exact h ▸ .refl
    | error e => exact ends_pure.2 (h ▸ .refl)
  | commit =>
    have hcommit := (commit_upkeep v).discard
    exact hcommit.bind (fun _ _ h => ends_pure.2 (hlift h)) fun _ _ h => hlift h
  | reopen settings => exact hq.elim
  | abandon settings => exact hq.elim
  | _ => exact (hc trivial).elim

end Request

end BlockStore
