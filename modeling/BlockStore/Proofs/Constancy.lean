import BlockStore.Proofs.Session
import BlockStore.Proofs.Stages

namespace BlockStore

namespace Action

variable {σ τ ρ α β : Type} {view : σ → ρ} {act : Action σ α}

/-- However `act` ends, `P` holds afterwards if it held before. -/
def Preserves (P : σ → Prop) (act : Action σ α) : Prop := ∀ s, P s → P (act s).2

theorem ends_always {s : σ} {P : σ → Prop} :
    Ends act s (fun _ => P) (fun _ => P) ↔ P (act s).2 := by
  rw [ends_iff]
  rcases act s with ⟨_ | _, t⟩ <;> rfl

theorem preserves_iff {P : σ → Prop} :
    Preserves P act ↔ ∀ s, P s → Ends act s (fun _ => P) fun _ => P :=
  forall₂_congr fun _ _ => ends_always.symm

section

variable {P : σ → Prop}

theorem preserves_pure (a : α) : Preserves P (pure a : Action σ α) := fun _ => id

theorem preserves_get : Preserves P (get : Action σ σ) := fun _ => id

theorem preserves_modify {f : σ → σ} (h : ∀ s, P s → P (f s)) :
    Preserves P (modify f : Action σ PUnit) := h

theorem preserves_throw (f : Failure) : Preserves P (throw f : Action σ α) := fun _ => id

theorem preserves_refuse (e : StoreError) : Preserves P (refuse e : Action σ α) := fun _ => id

theorem preserves_checked (c : Checked α) : Preserves P (liftM c : Action σ α) := fun s hs => by
  cases c <;> exact hs

namespace Preserves

theorem bind {next : α → Action σ β} (h : Preserves P act) (hn : ∀ a, Preserves P (next a)) :
    Preserves P (act >>= next) := preserves_iff.2 fun s hs => ends_bind.2 <|
  (preserves_iff.1 h s hs).mono (fun a t ht => preserves_iff.1 (hn a) t ht) fun _ _ ht => ht

/-- What is read off the state may rely on `P`. -/
theorem get_bind {next : σ → Action σ β} (hn : ∀ s, P s → Preserves P (next s)) :
    Preserves P (get >>= next) := fun s hs => hn s hs s hs

theorem discard (h : Preserves P act) : Preserves P (discard act) :=
  preserves_iff.2 fun s hs => ends_discard.2 (preserves_iff.1 h s hs)

theorem attempt (h : Preserves P act) : Preserves P act.attempt := by
  refine preserves_iff.2 fun s hs => ends_attempt.2 ((preserves_iff.1 h s hs).mono (fun _ _ ht => ht) ?_)
  rintro (f | e) t ht
  · exact ht
  · exact ht

theorem ite {p : Prop} [Decidable p] {act' : Action σ α} (h : Preserves P act)
    (h' : Preserves P act') : Preserves P (if p then act else act') := by
  split
  · exact h
  · exact h'

theorem when {p : Prop} [Decidable p] {act : Action σ PUnit} {next : PUnit → Action σ α}
    (h : Preserves P act) (hn : ∀ a, Preserves P (next a)) :
    Preserves P (if p then act >>= next else next ⟨⟩) := .ite (h.bind hn) (hn _)

theorem forM {xs : List β} {f : β → Action σ PUnit} (h : ∀ x, Preserves P (f x)) :
    Preserves P (xs.forM f) := preserves_iff.2 fun _ hs =>
  ends_forM (I := fun _ t => P t) hs fun x _ t ht => preserves_iff.1 (h x) t ht

theorem mapM {γ : Type} {xs : List β} {f : β → Action σ γ} (h : ∀ x, Preserves P (f x)) :
    Preserves P (xs.mapM f) := preserves_iff.2 fun _ hs =>
  ends_mapM (I := fun _ _ t => P t) hs fun x _ _ t ht => preserves_iff.1 (h x) t ht

end Preserves

end

/-- However `act` ends, what `view` shows of the state is as before. -/
def Fixes (view : σ → ρ) (act : Action σ α) : Prop := ∀ s, view (act s).2 = view s

theorem fixes_iff : Fixes view act ↔
    ∀ s, Ends act s (fun _ t => view t = view s) fun _ t => view t = view s :=
  forall_congr' fun s => (ends_always (P := fun t => view t = view s)).symm

theorem fixes_iff_preserves : Fixes view act ↔ ∀ x, Preserves (fun s => view s = x) act :=
  ⟨fun h _ s hs => (h s).trans hs, fun h s => h _ s rfl⟩

theorem fixes_pure (a : α) : Fixes view (pure a : Action σ α) := fun _ => rfl

theorem fixes_get : Fixes view (get : Action σ σ) := fun _ => rfl

theorem fixes_modify {f : σ → σ} (h : ∀ s, view (f s) = view s) :
    Fixes view (modify f : Action σ PUnit) := h

theorem fixes_throw (f : Failure) : Fixes view (throw f : Action σ α) := fun _ => rfl

theorem fixes_refuse (e : StoreError) : Fixes view (refuse e : Action σ α) := fun _ => rfl

theorem fixes_checked (c : Checked α) : Fixes view (liftM c : Action σ α) := fun s => by
  cases c <;> rfl

theorem fixes_except (c : Except Failure α) : Fixes view (liftM c : Action σ α) := fun s => by
  cases c <;> rfl

theorem fixes_within {get : σ → τ} {set : σ → τ → σ} {act : Action τ α}
    (h : ∀ s, view (set s (act (get s)).2) = view s) : Fixes view (within get set act) := h

namespace Fixes

theorem preserves (h : Fixes view act) (x : ρ) : Preserves (fun s => view s = x) act :=
  fixes_iff_preserves.1 h x

theorem bind {next : α → Action σ β} (h : Fixes view act) (hn : ∀ a, Fixes view (next a)) :
    Fixes view (act >>= next) :=
  fixes_iff_preserves.2 fun x => (h.preserves x).bind fun a => (hn a).preserves x

theorem discard (h : Fixes view act) : Fixes view (discard act) :=
  fixes_iff_preserves.2 fun x => (h.preserves x).discard

theorem attempt (h : Fixes view act) : Fixes view act.attempt :=
  fixes_iff_preserves.2 fun x => (h.preserves x).attempt

theorem ite {p : Prop} [Decidable p] {act' : Action σ α} (h : Fixes view act)
    (h' : Fixes view act') : Fixes view (if p then act else act') :=
  fixes_iff_preserves.2 fun x => (h.preserves x).ite (h'.preserves x)

theorem when {p : Prop} [Decidable p] {act : Action σ PUnit} {next : PUnit → Action σ α}
    (h : Fixes view act) (hn : ∀ a, Fixes view (next a)) :
    Fixes view (if p then act >>= next else next ⟨⟩) := .ite (h.bind hn) (hn _)

theorem forM {xs : List β} {f : β → Action σ PUnit} (h : ∀ x, Fixes view (f x)) :
    Fixes view (xs.forM f) := fixes_iff_preserves.2 fun y => .forM fun x => (h x).preserves y

end Fixes

end Action

namespace Occupancy

variable {o o' : Occupancy}

/-- What taking and giving back blocks leaves alone. -/
def shape (o : Occupancy) : Nat × Nat := (o.headerBlocks, o.blockSize)

theorem Turns.shape (h : o.Turns o') : o'.shape = o.shape := by
  cases h <;> rfl

end Occupancy

namespace Engine

open BlockStore.Action

variable {δ ρ α : Type} {view : Engine δ → ρ} {c : Chunk} {buf data payload : ByteArray}
  {r : Reserved} {pos len : Nat}

/-- Where a file is cut, only the device takes part. -/
theorem shrink_fixes [Device δ] (hsync : Fixes view sync)
    (htruncate : ∀ n, Fixes view (onDevice (Device.truncate n))) (minPercent : Nat) :
    Fixes view (shrink minPercent) := by
  unfold Engine.shrink
  refine .bind fixes_get fun e => ?_
  refine .ite (fixes_pure _) ?_
  refine .bind (fixes_checked _) fun stop => ?_
  refine .ite (fixes_pure _) (.ite (fixes_pure _) ?_)
  refine .bind (fixes_checked _) fun scaled => ?_
  refine .ite (fixes_pure _) ?_
  exact .bind hsync fun _ => .bind (htruncate _) fun _ => fixes_pure _

/-- The view shows nothing of what the operations of an engine work on, and nothing that reading
and writing does to the device. -/
structure Detached [Device δ] (view : Engine δ → ρ) : Prop where
  read_device (pos len : Nat) : Fixes view (onDevice (Device.read pos len))
  write_device (pos : Nat) (data : ByteArray) : Fixes view (onDevice (Device.write pos data))
  occupancy (e : Engine δ) (o : Occupancy) : o.shape = e.occupancy.shape →
    view { e with occupancy := o } = view e
  pool (e : Engine δ) (p : BufferPool) : view { e with pool := p } = view e
  traffic (e : Engine δ) (t : Traffic) : view { e with traffic := t } = view e

/-- The view shows nothing of the device either. -/
structure Aloof [Device δ] (view : Engine δ → ρ) : Prop extends Detached view where
  device (e : Engine δ) (d : δ) : view { e with device := d } = view e

variable [Device δ]

namespace Detached

variable (hv : Detached view)

include hv

theorem mark (pos len : Nat) : Fixes view (mark pos len) := fixes_iff.2 fun e => by
  unfold Engine.mark
  rw [ends_bind, ends_get, ends_bind]
  cases ho : e.occupancy.mark pos len with
  | error f => exact ends_iff.2 rfl
  | ok o =>
    exact (ends_except rfl).2 (ends_modify.2 (hv.occupancy e o (Occupancy.turns_of_mark ho).shape))

theorem free (pos len : Nat) : Fixes view (free pos len) := fixes_iff.2 fun e => by
  unfold Engine.free
  rw [ends_bind, ends_get, ends_bind]
  cases ho : e.occupancy.free pos len with
  | error f => exact ends_iff.2 rfl
  | ok o =>
    exact (ends_except rfl).2 (ends_modify.2 (hv.occupancy e o (Occupancy.turns_of_free ho).shape))

theorem allocate (len : Nat) (r : Reserved) : Fixes view (allocate len r) := fixes_iff.2 fun e => by
  unfold Engine.allocate
  rw [ends_bind, ends_get, ends_bind]
  rcases ho : e.occupancy.allocate len r with f | ⟨pos, o⟩
  · exact ends_iff.2 rfl
  · refine (ends_checked rfl).2 ?_
    rw [ends_bind, ends_modify]
    exact ends_pure.2 (hv.occupancy e o (Occupancy.turns_of_allocate ho).shape)

theorem acquire (len : Nat) : Fixes view (acquire len) := fixes_iff.2 fun e => by
  unfold Engine.acquire
  rw [ends_bind, ends_get, ends_bind]
  rcases hp : e.pool.acquire len with f | ⟨buf, pool⟩
  · exact ends_iff.2 rfl
  · refine (ends_checked rfl).2 ?_
    rw [ends_bind, ends_modify]
    exact ends_pure.2 (hv.pool e pool)

theorem release (buf : ByteArray) : Fixes view (release buf) := fixes_modify fun e => hv.pool e _

theorem markChunk (c : Chunk) : Fixes view (markChunk c) :=
  .bind (fixes_checked _) fun _ => hv.mark _ _

theorem freeChunk (c : Chunk) : Fixes view (freeChunk c) :=
  .bind (fixes_checked _) fun _ => hv.free _ _

theorem read (pos len : Nat) : Fixes view (read pos len) :=
  .bind (hv.read_device pos len) fun _ =>
    .bind (fixes_modify fun e => hv.traffic e _) fun _ => fixes_pure _

theorem write (pos : Nat) (data : ByteArray) : Fixes view (write pos data) :=
  .bind (hv.write_device pos data) fun _ => fixes_modify fun e => hv.traffic e _

theorem load (c : Chunk) : Fixes view (load c) := by
  unfold Engine.load
  refine .bind (fixes_checked _) fun start => ?_
  refine .bind (hv.read _ _) fun buf => ?_
  exact .bind (fixes_except _) fun head => fixes_pure _

omit hv [Device δ] in
theorem checkPlaced (c : Chunk) : Fixes view (checkPlaced c) := by
  unfold Engine.checkPlaced
  refine .bind fixes_get fun e => ?_
  refine .bind (fixes_checked _) fun start => ?_
  refine .bind (fixes_checked _) fun used => ?_
  refine .ite ?_ (.bind (.discard (fixes_checked _)) fun _ => .bind (fixes_refuse _) fun _ => ?_)
  all_goals exact .bind (fixes_checked _) fun stop => .ite (fixes_refuse _) (fixes_pure _)

theorem allocateFor (c : Chunk) (buf : ByteArray) : Fixes view (allocateFor c buf) := by
  unfold Engine.allocateFor
  refine .bind fixes_get fun e => ?_
  refine .when (fixes_refuse _) fun _ => ?_
  refine .when (fixes_refuse _) fun _ => ?_
  refine .bind (fixes_except _) fun payload => ?_
  refine .bind (hv.allocate _ _) fun pos => ?_
  have hplaced (next : Nat) : Fixes view (do
      let placed := { c with block := (pos / blockSize).toUInt64, next := next.toUInt64 }
      let framed ← Frame.write buf placed payload
      Engine.checkPlaced placed
      return (placed, framed) : Action (Engine δ) _) :=
    .bind (fixes_checked _) fun framed => .bind (checkPlaced _) fun _ => fixes_pure _
  exact .ite (.bind fixes_get fun e => .bind (fixes_checked _) hplaced) (.bind (fixes_pure _) hplaced)

theorem writeChunk (c : Chunk) (buf : ByteArray) : Fixes view (writeChunk c buf) := by
  unfold Engine.writeChunk
  refine .bind (fixes_checked _) fun start => ?_
  refine .bind (.attempt (hv.write _ _)) fun written => ?_
  cases written with
  | ok => exact fixes_pure _
  | error e => exact .bind (hv.freeChunk c) fun _ => fixes_refuse _

theorem place (c : Chunk) (payload : ByteArray) : Fixes view (place c payload) := by
  unfold Engine.place
  refine .bind (fixes_checked _) fun len => ?_
  refine .when (fixes_refuse _) fun _ => ?_
  refine .bind (hv.acquire _) fun buf => ?_
  refine .when (fixes_throw _) fun _ => ?_
  refine .bind (fixes_checked _) fun framed => ?_
  refine .bind (.attempt <| .bind (hv.allocateFor _ _) fun _ =>
    .bind (hv.writeChunk _ _) fun _ => fixes_pure _) fun placed => ?_
  refine .bind (hv.release _) fun _ => ?_
  cases placed with
  | ok c => exact fixes_pure _
  | error e => exact fixes_refuse _

theorem copy (c : Chunk) (r : Reserved) : Fixes view (copy c r) := by
  unfold Engine.copy
  refine .bind (hv.load c) fun a => ?_
  refine .bind (hv.acquire _) fun buf => ?_
  refine .bind (fixes_checked _) fun framed => ?_
  refine .bind (hv.allocate _ _) fun pos => ?_
  refine .when (fixes_throw _) fun _ => ?_
  refine .bind (fixes_checked _) fun framed => ?_
  refine .bind (.attempt (hv.write _ _)) fun written => ?_
  refine .bind (hv.release _) fun _ => ?_
  cases written with
  | ok => exact fixes_pure _
  | error e => exact .bind (hv.free _ _) fun _ => fixes_refuse _

end Detached

namespace Aloof

theorem of_device (hdevice : ∀ (e : Engine δ) (d : δ), view { e with device := d } = view e)
    (hoccupancy : ∀ (e : Engine δ) (o : Occupancy), o.shape = e.occupancy.shape →
      view { e with occupancy := o } = view e)
    (hpool : ∀ (e : Engine δ) (p : BufferPool), view { e with pool := p } = view e)
    (htraffic : ∀ (e : Engine δ) (t : Traffic), view { e with traffic := t } = view e) :
    Aloof view :=
  ⟨⟨fun _ _ => fixes_within fun e => hdevice e _, fun _ _ => fixes_within fun e => hdevice e _,
    hoccupancy, hpool, htraffic⟩, hdevice⟩

variable (hv : Aloof view)

include hv

theorem onDevice (act : Action δ α) : Fixes view (onDevice act) :=
  fixes_within fun e => hv.device e _

theorem sync : Fixes view sync := hv.onDevice _

theorem shrink (minPercent : Nat) : Fixes view (shrink minPercent) :=
  shrink_fixes hv.sync (fun _ => hv.onDevice _) minPercent

end Aloof

/-- What no request changes while the file is open. -/
def terms (e : Engine δ) : Bool × Nat × Nat := (e.reuse, e.occupancy.shape)

theorem aloof_terms : Aloof (terms (δ := δ)) :=
  .of_device (fun _ _ => rfl) (fun _ _ ho => by rw [terms, terms, ho]) (fun _ _ => rfl) fun _ _ => rfl

theorem aloof_reserved : Aloof (reserved (δ := δ)) :=
  .of_device (fun _ _ => rfl) (fun _ _ _ => rfl) (fun _ _ => rfl) fun _ _ => rfl

end Engine

namespace Store

open BlockStore.Action Engine

variable {δ ρ α : Type} {view : Engine δ → ρ}

/-- What the view shows of the engine of a store. -/
def Fixes (view : Engine δ → ρ) (act : Action (Store δ) α) : Prop :=
  Action.Fixes (fun v : Store δ => view v.engine) act

theorem fixes_onEngine {act : Action (Engine δ) α} (h : Action.Fixes view act) :
    Fixes view (Volume.onEngine act) := fixes_within fun v => h v.engine

theorem fixes_records {f : Store δ → Catalog} :
    Fixes view (modify fun v => { v with records := f v }) := fixes_modify fun _ => rfl

theorem takeId_fixes : Fixes view takeId := fixes_iff.2 fun v => by
  unfold takeId
  rw [ends_bind, ends_get, ends_bind]
  rcases v.records.takeId with f | ⟨id, records⟩
  · exact ends_iff.2 rfl
  · refine (ends_checked rfl).2 ?_
    rw [ends_bind, ends_modify]
    exact ends_pure.2 rfl

variable [Device δ] (hv : Aloof view)

theorem guardWritable_fixes : Fixes view guardWritable :=
  .bind fixes_get fun _ => .ite (fixes_refuse _) (fixes_pure _)

include hv

theorem write_fixes (payload : ByteArray) : Fixes view (write payload) := by
  unfold write
  refine .bind guardWritable_fixes fun _ => ?_
  refine .bind takeId_fixes fun id => ?_
  refine .bind fixes_get fun v => ?_
  refine .bind (fixes_checked _) fun version => ?_
  exact .bind (fixes_onEngine (hv.place _ _)) fun c => .bind fixes_records fun _ => fixes_pure _

theorem read_fixes (id : UInt32) : Fixes view (read id) := by
  unfold read
  refine .bind fixes_get fun v => ?_
  cases v.records.find? id with
  | none => exact fixes_refuse _
  | some c => exact .bind (fixes_onEngine (hv.load c)) fun a => fixes_pure _

omit hv in
theorem remove_fixes (id : UInt32) : Fixes view (remove id) := by
  unfold remove
  refine .bind guardWritable_fixes fun _ => ?_
  refine .bind fixes_get fun v => ?_
  cases v.records.data.find? id with
  | none => exact fixes_refuse _
  | some c => exact fixes_records

theorem commit_fixes : Fixes view commit := by
  unfold commit
  have hpublish (c : Chunk) (payload : ByteArray) (s : Chunk → Superblock) : Action.Fixes view (do
      let root ← Engine.place c payload
      Engine.sync
      Engine.write 0 (s root).toBytes
      Engine.sync
      return root) :=
    .bind (hv.place c payload) fun root => .bind hv.sync fun _ => .bind (hv.write _ _) fun _ =>
      .bind hv.sync fun _ => fixes_pure _
  refine .bind guardWritable_fixes fun _ => ?_
  refine .bind takeId_fixes fun id => ?_
  refine .bind fixes_get fun v => ?_
  refine .bind (fixes_checked _) fun version => ?_
  refine .bind (fixes_onEngine (hpublish _ _ _)) fun root => ?_
  refine .bind fixes_records fun _ => ?_
  exact .bind (fixes_onEngine (.forM hv.freeChunk)) fun _ => fixes_pure _

theorem register_fixes (c : Chunk) : Fixes view (register c) := by
  unfold register
  have hpublish (s : Superblock) : Action.Fixes view (do
      Engine.sync
      Engine.write 0 s.toBytes
      Engine.sync) := .bind hv.sync fun _ => .bind (hv.write _ _) fun _ => hv.sync
  refine .bind fixes_get fun v => ?_
  refine .ite (.bind fixes_records fun _ => fixes_onEngine (hpublish _)) ?_
  exact .ite fixes_records (fixes_pure _)

theorem move_fixes (id : UInt32) (r : Reserved) :
    Fixes view (Volume.move id r : Action (Store δ) (Option Chunk)) := by
  unfold Volume.move
  refine .bind fixes_get fun v => ?_
  cases v.chunk? id with
  | none => exact fixes_pure _
  | some c =>
    have hcopy : Action.Fixes view (do
        let moved ← Engine.copy c r
        Engine.freeChunk c
        return moved) :=
      .bind (hv.copy c r) fun moved => .bind (hv.freeChunk c) fun _ => fixes_pure _
    refine .bind (fixes_onEngine hcopy) fun moved => ?_
    exact .bind (register_fixes hv moved) fun _ => fixes_pure _

theorem close_fixes : Fixes view close := by
  unfold close
  have htrim : Action.Fixes view (do
      discard (Engine.shrink (← get).settings.shrinkFrom)
      Engine.sync) :=
    .bind fixes_get fun e => .bind (.discard (hv.shrink _)) fun _ => hv.sync
  refine .bind fixes_get fun v => ?_
  refine .ite (fixes_pure _) ?_
  refine .bind fixes_get fun v => ?_
  refine .ite ?_ (fixes_onEngine htrim)
  exact .bind (.discard (commit_fixes hv)) fun _ => fixes_onEngine htrim

theorem recover_fixes : Action.Fixes view recover := by
  unfold recover
  refine .bind fixes_get fun e => ?_
  refine .ite ?_ (.when (fixes_refuse _) fun _ => ?_)
  · refine .when (fixes_refuse _) fun _ => ?_
    exact .bind (hv.write _ _) fun _ => .bind hv.sync fun _ => fixes_pure _
  · refine .bind (hv.read _ _) fun header => ?_
    refine .bind (fixes_except _) fun s => ?_
    refine .ite ?_ (fixes_pure _)
    refine .bind (hv.load _) fun a => ?_
    refine .bind (fixes_except _) fun image => ?_
    refine .when (fixes_refuse _) fun _ => ?_
    refine .bind (hv.markChunk _) fun _ => ?_
    exact .bind (.forM hv.markChunk) fun _ => fixes_pure _

omit hv

/-- What the steps of a compaction keep, whatever becomes of them, if only chunks with a `Loose` id
move. The root is one of them. -/
structure Lasting (Loose : UInt32 → Prop) (P : Store δ → Prop) : Prop where
  sync : Preserves P (Volume.onEngine Engine.sync)
  trim : Preserves P (Volume.onEngine do
    discard (Engine.shrink 0)
    Engine.sync)
  reserve (v : Store δ) (r : Reserved) : P v → P { v with engine := { v.engine with reserved := r } }
  commit : Preserves P commit
  move {id : UInt32} (r : Reserved) : Loose id → Preserves P (Volume.move id r)
  root {v : Store δ} {c : Chunk} : P v → v.records.root = some c → Loose c.id

namespace Lasting

variable {P : Store δ → Prop} {Loose : UInt32 → Prop} {id : UInt32} (h : Lasting Loose P)

include h

theorem moveBelow (hid : Loose id) (boundary : Nat) :
    Preserves P (Volume.moveBelow id boundary : Action (Store δ) Bool) := by
  unfold Volume.moveBelow
  refine .bind preserves_get fun v => ?_
  cases hfind : v.chunk? id with
  | none => exact preserves_pure _
  | some c =>
    have hc : c.id = id := Catalog.id_of_find? hfind
    refine .ite (preserves_pure _) ?_
    refine .bind preserves_get fun v => ?_
    refine .bind (preserves_checked _) fun target => ?_
    refine .ite (preserves_pure _) ?_
    refine .bind (h.move _ (hc ▸ hid)) fun moved? => ?_
    cases moved? with
    | none => exact preserves_pure _
    | some moved =>
      exact .bind (preserves_checked _) fun stop => .when (preserves_throw _) fun _ => preserves_pure _

theorem storeReserving (r : Reserved) :
    Preserves P (Volume.storeReserving r : Action (Store δ) Unit) := by
  unfold Volume.storeReserving
  refine .bind (preserves_modify fun v => h.reserve v r) fun _ => ?_
  refine .bind (.attempt (.discard h.commit)) fun stored => ?_
  refine .bind (preserves_modify fun v => h.reserve v .nothing) fun _ => ?_
  cases stored with
  | ok => exact preserves_pure _
  | error e => exact preserves_refuse _

theorem returnLast (boundary : Nat) (movedLate : Bool) :
    Preserves P (Volume.returnLast boundary movedLate : Action (Store δ) Unit) := by
  unfold Volume.returnLast
  refine .get_bind fun v hv => ?_
  have hstore (movedLast : Bool) : Preserves P (if (movedLast || movedLate) = true then
      Volume.storeReserving (.above boundary) else pure ⟨⟩) :=
    .ite (h.storeReserving _) (preserves_pure _)
  cases hroot : v.root? with
  | none => exact .bind (preserves_pure _) hstore
  | some last => exact .bind (h.moveBelow (h.root hv hroot) _) hstore

theorem returnRoot {root : Chunk} (hroot : Loose root.id) (inside : Bool) (oldStop newStop : Nat) :
    Preserves P (Volume.returnRoot root inside oldStop newStop : Action (Store δ) Unit) := by
  rw [Volume.returnRoot_eq]
  refine .bind (h.moveBelow hroot _) fun moved => ?_
  refine .bind (h.storeReserving _) fun _ => ?_
  refine .bind h.sync fun _ => ?_
  exact .ite (.bind (preserves_pure _) (h.returnLast _))
    (.bind (h.moveBelow hroot _) (h.returnLast _))

variable (hall : ∀ id, Loose id)

include hall

theorem runPass (leftmost : Nat) (moves : List Chunk) :
    Preserves P (Volume.runPass leftmost moves : Action (Store δ) Unit) := by
  unfold Volume.runPass
  refine .bind h.sync fun _ => ?_
  refine .bind preserves_get fun v => ?_
  refine .bind (.mapM fun c => .bind (h.move _ (hall _)) fun moved => preserves_pure _)
    fun evacuated => ?_
  refine .bind (h.storeReserving _) fun _ => ?_
  refine .bind h.sync fun _ => ?_
  refine .bind preserves_get fun v₁ => ?_
  refine .bind preserves_get fun v₂ => ?_
  refine .bind (.mapM fun c => h.move _ (hall _)) fun returned => ?_
  refine .ite ?_ h.trim
  cases v₁.root? with
  | none => exact h.trim
  | some root => exact .bind (h.returnRoot (hall _) _ _ _) fun _ => h.trim

theorem pass (passBytes : Nat) :
    Preserves P (Volume.compact passBytes : Action (Store δ) Bool) := by
  unfold Volume.compact
  refine .bind preserves_get fun v => ?_
  refine .bind (preserves_checked _) fun first => ?_
  refine .bind (preserves_checked _) fun moves => ?_
  cases moves with
  | nil => exact preserves_pure _
  | cons c moves => exact .bind (h.runPass hall _ _) fun _ => preserves_pure _

theorem compact (target passBytes : Nat) : Preserves P (compact target passBytes) := by
  unfold Store.compact
  refine .bind preserves_get fun v => ?_
  refine .ite (preserves_pure _) ?_
  refine .bind (preserves_checked _) fun rate => ?_
  refine .ite (preserves_pure _) (.ite (h.pass hall passBytes) ?_)
  exact .bind (.discard h.commit) fun _ => h.pass hall passBytes

theorem compactAll (spare target passBytes : Nat) :
    Preserves P (compactAll spare target passBytes) := by
  induction spare with
  | zero => exact h.compact hall target passBytes
  | succ spare ih =>
    refine .bind (h.compact hall target passBytes) fun going => ?_
    exact .ite (.bind (.discard ih) fun _ => preserves_pure _) (preserves_pure _)

theorem maintain (spare : Nat) : Preserves P (maintain spare) := by
  unfold Store.maintain
  refine .bind preserves_get fun v => ?_
  refine .ite (preserves_pure _) ?_
  refine .bind (preserves_checked _) fun rate => ?_
  exact .ite (preserves_pure _) (h.compactAll hall _ _ _)

end Lasting

/-- A view that does not show the reservation either is kept by compactions. -/
theorem lasting_of_aloof (hv : Aloof view)
    (hr : ∀ (e : Engine δ) (r : Reserved), view { e with reserved := r } = view e) (x : ρ) :
    Lasting (fun _ => True) fun v : Store δ => view v.engine = x where
  sync := (fixes_onEngine hv.sync).preserves x
  trim := Action.Fixes.preserves (fixes_onEngine (.bind (.discard (hv.shrink 0)) fun _ => hv.sync)) x
  reserve v r h := (hr v.engine r).trans h
  commit := (commit_fixes hv).preserves x
  move r _ := (move_fixes hv _ r).preserves x
  root _ _ := trivial

end Store

namespace Store

open BlockStore.Action Engine

variable {δ : Type} [Device δ] {v : Store δ}

theorem compact_idle (hreuse : v.engine.reuse = false) (target passBytes : Nat) :
    compact target passBytes v = (.ok false, v) := by
  have hends : Ends (compact target passBytes) v (fun b w => b = false ∧ w = v) fun _ _ => False := by
    unfold compact
    rw [ends_bind, ends_get, hreuse]
    dsimp only
    rw [if_pos (by rw [Bool.not_false, Bool.or_true])]
    exact ends_pure.2 ⟨rfl, rfl⟩
  obtain ⟨_, _, hrun, rfl, rfl⟩ := hends.total
  exact hrun

theorem compactAll_idle (hreuse : v.engine.reuse = false) (spare target passBytes : Nat) :
    compactAll spare target passBytes v = (.ok false, v) := by
  cases spare with
  | zero => exact compact_idle hreuse target passBytes
  | succ spare =>
    have hends : Ends (compactAll (spare + 1) target passBytes) v (fun b w => b = false ∧ w = v)
        fun _ _ => False := by
      unfold compactAll
      rw [ends_bind, ends_iff, compact_idle hreuse]
      exact ends_pure.2 ⟨rfl, rfl⟩
    obtain ⟨_, _, hrun, rfl, rfl⟩ := hends.total
    exact hrun

theorem maintain_idle (hheader : v.engine.occupancy.headerBlocks = headerBlocks)
    (hreuse : v.engine.reuse = false) (spare : Nat) : maintain spare v = (.ok false, v) := by
  have hends : Ends (maintain spare) v (fun b w => b = false ∧ w = v) fun _ _ => False := by
    obtain ⟨rate, hrate⟩ := Occupancy.fillRateWithout_eq_ok (o := v.engine.occupancy) (n := 0) (by
      rw [hheader]
      decide)
    unfold maintain
    rw [ends_bind, ends_get]
    dsimp only
    split
    · exact ends_pure.2 ⟨rfl, rfl⟩
    rw [ends_bind, Occupancy.fillRate, ends_checked hrate]
    split
    · exact ends_pure.2 ⟨rfl, rfl⟩
    · rw [ends_iff, compactAll_idle hreuse]
      exact ⟨rfl, rfl⟩
  obtain ⟨_, _, hrun, rfl, rfl⟩ := hends.total
  exact hrun

end Store

namespace Request

open BlockStore.Action Engine Store

variable {δ ρ : Type} [Device δ] {view : Engine δ → ρ} {q : Request} {v : Store δ}

theorem run_fixes (hv : Aloof view) (hq : q.Stays) (hc : ¬q.Compacts) : Store.Fixes view q.run := by
  cases q with
  | write payload => exact .bind (write_fixes hv payload) fun c => fixes_pure _
  | read id => exact .bind (.attempt (read_fixes hv id)) fun data => fixes_pure _
  | remove id => exact .bind (.attempt (remove_fixes id)) fun outcome => fixes_pure _
  | commit => exact .bind (.discard (commit_fixes hv)) fun _ => fixes_pure _
  | reopen settings => exact hq.elim
  | abandon settings => exact hq.elim
  | _ => exact (hc trivial).elim

theorem run_preserves_of_compacts {P : Store δ → Prop} {Loose : UInt32 → Prop}
    (h : Lasting Loose P) (hall : ∀ id, Loose id) (hc : q.Compacts) : Preserves P q.run := by
  cases q with
  | compact target passBytes =>
    exact .bind (.discard (h.compact hall target passBytes)) fun _ => preserves_pure _
  | compactAll spare target passBytes =>
    exact .bind (.discard (h.compactAll hall spare target passBytes)) fun _ => preserves_pure _
  | maintain spare => exact .bind (.discard (h.maintain hall spare)) fun _ => preserves_pure _
  | _ => exact hc.elim

theorem run_terms (hq : q.Stays) (v : Store δ) : terms (q.run v).2.engine = terms v.engine := by
  by_cases hc : q.Compacts
  · exact run_preserves_of_compacts (lasting_of_aloof aloof_terms (fun _ _ => rfl) _)
      (fun _ => trivial) hc v rfl
  · exact run_fixes aloof_terms hq hc v

/-- Where space is not reused there is nothing to compact. -/
theorem run_idle (hheader : v.engine.occupancy.headerBlocks = headerBlocks)
    (hreuse : v.engine.reuse = false) (hq : q.Compacts) : q.run v = (.ok .done, v) := by
  have hends : Ends q.run v (fun reply w => reply = .done ∧ w = v) fun _ _ => False := by
    cases q with
    | compact target passBytes =>
      rw [run, ends_bind, ends_discard, ends_iff, compact_idle hreuse]
      exact ends_pure.2 ⟨rfl, rfl⟩
    | compactAll spare target passBytes =>
      rw [run, ends_bind, ends_discard, ends_iff, compactAll_idle hreuse]
      exact ends_pure.2 ⟨rfl, rfl⟩
    | maintain spare =>
      rw [run, ends_bind, ends_discard, ends_iff, maintain_idle hheader hreuse]
      exact ends_pure.2 ⟨rfl, rfl⟩
    | _ => exact hq.elim
  obtain ⟨_, _, hrun, rfl, rfl⟩ := hends.total
  exact hrun

end Request

namespace Store

open BlockStore.Action Engine

variable {δ : Type} [Device δ] {v w : Store δ} {settings : Settings}

/-- A store keeps to the blocks of the format, and where space is not reused none is reserved. -/
structure Steady (v : Store δ) : Prop where
  shape : v.engine.occupancy.shape = (headerBlocks, blockSize)
  reserved : v.engine.reuse = false → v.engine.reserved = .nothing

omit [Device δ] in
theorem Steady.of_same (h : Steady v) (ht : terms w.engine = terms v.engine)
    (hr : w.engine.reserved = v.engine.reserved) : Steady w := by
  obtain ⟨hreuse, hshape⟩ := Prod.mk.inj ht
  exact ⟨hshape.trans h.shape, fun hw => hr.trans (h.reserved (hreuse ▸ hw))⟩

theorem steady_of_openOn {d : δ} (h : openOn settings d = .ok v) : Steady v := by
  obtain ⟨e, -, ho, hm, hopen⟩ := openOn_eq (d := d) (usable_of_openOn h)
  rw [hopen] at h
  have ht := recover_fixes aloof_terms e
  have hr := recover_fixes aloof_reserved e
  have he : Steady ⟨e, {}⟩ := ⟨by rw [ho]; rfl, fun _ => congrArg Mode.reserved hm⟩
  rcases hrun : recover e with ⟨f | records, e'⟩ <;> rw [hrun] at h ht hr
  · cases h
  · obtain rfl := Except.ok.inj h
    exact he.of_same ht hr

theorem Steady.openAgain (h : Steady v) (settings : Settings) :
    Steady (openAgain settings v).2 := by
  unfold Store.openAgain
  split
  · next w hopen => exact steady_of_openOn hopen
  · next f d hopen => exact h.of_same rfl rfl

theorem Steady.run (h : Steady v) (q : Request) : Steady (q.run v).2 := by
  by_cases hq : q.Stays
  · obtain ⟨hreuse, hshape⟩ := Prod.mk.inj (Request.run_terms hq v)
    refine ⟨hshape.trans h.shape, fun hw => ?_⟩
    have hv : v.engine.reuse = false := hreuse ▸ hw
    by_cases hc : q.Compacts
    · rw [Request.run_idle (congrArg Prod.fst h.shape) hv hc]
      exact h.reserved hv
    · exact (Request.run_fixes aloof_reserved hq hc v).trans (h.reserved hv)
  have hopen (settings : Settings) (w : Store δ) (hw : Steady w) : Ends (do
      Store.openAgain settings
      return Reply.done) w (fun _ => Steady) fun _ => Steady :=
    (ends_always.2 (hw.openAgain settings)).bind (fun _ _ hw => ends_pure.2 hw) fun _ _ hw => hw
  refine ends_always.1 ?_
  cases q with
  | reopen settings =>
    have hclose : Steady (close v).2 :=
      h.of_same (close_fixes aloof_terms v) (close_fixes aloof_reserved v)
    exact (ends_always.2 hclose).bind (fun _ w hw => hopen settings w hw) fun _ _ hw => hw
  | abandon settings => exact hopen settings v h
  | _ => exact (hq trivial).elim

end Store

end BlockStore
