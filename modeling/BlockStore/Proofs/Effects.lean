import BlockStore.Proofs.Allocation
import BlockStore.Proofs.Constancy

namespace BlockStore.Engine

open BlockStore.Action

variable {δ α : Type} {e e' : Engine δ} {c moved : Chunk} {p buf : ByteArray} {r : Reserved}
  {start n : Nat}

/-- Where allocations may go. -/
def plan (e : Engine δ) : Occupancy × Reserved := (e.occupancy, e.reserved)

/-- From `e` to `e'` just the blocks of `c` have been taken, which an allocation under `r` may take. -/
structure Houses (e : Engine δ) (r : Reserved) (c : Chunk) (e' : Engine δ) : Prop where
  room : Room e r c.first c.len.toNat
  plan : ∃ wasteful, e'.plan = (e.taking c.first c.len.toNat wasteful).plan

theorem Houses.of_plan {d f : Engine δ} (h : Houses d r c f) (h₁ : d.plan = e.plan)
    (h₂ : e'.plan = f.plan) : Houses e r c e' := by
  obtain ⟨⟨hlt, hp, hv, ho⟩, wasteful, hplan⟩ := h
  obtain ⟨hocc, hres⟩ := Prod.mk.inj h₁
  rw [hocc] at hp hv ho
  refine ⟨⟨hlt, hp, hv, ho⟩, wasteful, h₂.trans (hplan.trans ?_)⟩
  rw [Engine.plan, Engine.plan, taking, taking, hocc, hres]

theorem Houses.mem_used {b : Nat} (h : Houses e r c e') :
    b ∈ e'.occupancy.used ↔ b ∈ e.occupancy.used ∨ c.Covers b := by
  obtain ⟨wasteful, hplan⟩ := h.plan
  rw [(Prod.mk.inj hplan).1]
  exact Bitmap.mem_insertRange

theorem Houses.blockSize_eq (h : Houses e r c e') :
    e'.occupancy.blockSize = e.occupancy.blockSize := by
  obtain ⟨wasteful, hplan⟩ := h.plan
  rw [(Prod.mk.inj hplan).1]
  rfl

/-- From `e` to `e'` the blocks of `old`, which were in use, have been given back for those of `new`. -/
structure Exchanges (e : Engine δ) (r : Reserved) (old new : Chunk) (e' : Engine δ) : Prop where
  room : Room e r new.first new.len.toNat
  filled : ∀ b, old.Covers b → b ∈ e.occupancy.used ∨ new.Covers b
  mem_used : ∀ b, b ∈ e'.occupancy.used ↔ (b ∈ e.occupancy.used ∨ new.Covers b) ∧ ¬old.Covers b
  blockSize : e'.occupancy.blockSize = e.occupancy.blockSize

namespace Exchanges

variable {old new : Chunk}

theorem used (h : Exchanges e r old new e') : ∀ b ∈ e'.occupancy.used,
    (b ∈ e.occupancy.used ∨ new.Covers b) ∧ ¬old.Covers b := fun b => (h.mem_used b).1

theorem of_plan {d : Engine δ} (h : Exchanges e r old new d) (hplan : e'.plan = d.plan) :
    Exchanges e r old new e' := by
  have hocc := (Prod.mk.inj hplan).1
  exact { h with mem_used := hocc ▸ h.mem_used, blockSize := hocc ▸ h.blockSize }

/-- First the new blocks are taken, then the old ones given back. -/
theorem of_houses {d : Engine δ} (h : Houses e r new d)
    (hfilled : d.occupancy.Filled old.first old.len.toNat) (hplan : e'.plan =
      ({ d.occupancy with used := d.occupancy.used.eraseRange old.first old.after }, d.reserved)) :
    Exchanges e r old new e' := by
  have hocc := (Prod.mk.inj hplan).1
  refine ⟨h.room, fun b hb => h.mem_used.1 (hfilled b hb.1 hb.2), fun b => ?_, ?_⟩
  · rw [hocc, ← h.mem_used]
    exact Bitmap.mem_eraseRange
  · rw [hocc]
    exact h.blockSize_eq

end Exchanges

/-- From `e` to `e'` a chunk has left its blocks for those of `moved`. -/
structure Rehouses (e : Engine δ) (r : Reserved) (c moved : Chunk) (e' : Engine δ) : Prop extends
    Exchanges e r c moved e' where
  id_eq : moved.id = c.id
  len_eq : moved.len = c.len

theorem Rehouses.of_plan {d : Engine δ} (h : Rehouses e r c moved d)
    (hplan : e'.plan = d.plan) : Rehouses e r c moved e' :=
  ⟨h.toExchanges.of_plan hplan, h.id_eq, h.len_eq⟩

theorem onDevice_plan (act : Action δ α) : Fixes plan (onDevice act) := fixes_within fun _ => rfl

theorem acquire_plan (len : Nat) : Fixes (plan (δ := δ)) (acquire len) := fixes_iff.2 fun e => by
  unfold acquire
  rw [ends_bind, ends_get, ends_bind]
  rcases e.pool.acquire len with f | ⟨buf, pool⟩
  · exact ends_iff.2 rfl
  · refine (ends_checked rfl).2 ?_
    rw [ends_bind, ends_modify]
    exact ends_pure.2 rfl

theorem release_plan (buf : ByteArray) : Fixes (plan (δ := δ)) (release buf) :=
  fixes_modify fun _ => rfl

/-- What is given back was in use. -/
theorem freeChunk_vacates (hb : e.occupancy.blockSize = blockSize) : Ends (freeChunk c) e
    (fun _ e' => e.occupancy.Filled c.first c.len.toNat ∧ e'.plan =
      ({ e.occupancy with used := e.occupancy.used.eraseRange c.first c.after }, e.reserved)) Any := by
  unfold freeChunk free
  rw [ends_bind]
  refine ends_of_checked fun start hstart => ?_
  obtain ⟨-, rfl⟩ := word64_eq_ok.1 hstart
  rw [ends_bind, ends_get, ends_bind]
  refine ends_of_except fun o ho => ?_
  obtain ⟨hfilled, rfl⟩ := Occupancy.of_free hb (by decide) ho
  exact ends_modify.2 ⟨hfilled, rfl⟩

/-- No block comes into use by giving blocks back. -/
theorem freeAll_vacates (hb : e.occupancy.blockSize = blockSize) (cs : List Chunk) :
    Ends (cs.forM freeChunk) e (fun _ e' => e'.occupancy.blockSize = blockSize ∧
      ∀ b ∈ e'.occupancy.used, b ∈ e.occupancy.used) Any := by
  refine ends_forM (I := fun _ (e' : Engine δ) => e'.occupancy.blockSize = blockSize ∧
    ∀ b ∈ e'.occupancy.used, b ∈ e.occupancy.used) ⟨hb, fun _ hm => hm⟩ ?_
  rintro c _ e₁ ⟨hb₁, hsub⟩
  refine (freeChunk_vacates hb₁).mono ?_ fun _ _ hf => hf
  rintro _ e₂ ⟨-, hplan⟩
  rw [(Prod.mk.inj hplan).1]
  exact ⟨hb₁, fun b hm => hsub b (Bitmap.mem_eraseRange.1 hm).1⟩

variable [Device δ]

theorem write_plan (pos : Nat) (data : ByteArray) : Fixes (plan (δ := δ)) (write pos data) :=
  .bind (onDevice_plan _) fun _ => fixes_modify fun _ => rfl

theorem sync_plan : Fixes (plan (δ := δ)) sync := onDevice_plan _

theorem shrink_plan (minPercent : Nat) : Fixes (plan (δ := δ)) (shrink minPercent) :=
  shrink_fixes sync_plan (fun _ => onDevice_plan _) minPercent

theorem load_plan (c : Chunk) : Fixes (plan (δ := δ)) (load c) := by
  have hread (pos len : Nat) : Fixes (plan (δ := δ)) (read pos len) :=
    .bind (onDevice_plan _) fun _ => .bind (fixes_modify fun _ => rfl) fun _ => fixes_pure _
  unfold load
  refine .bind (fixes_checked _) fun start => ?_
  refine .bind (hread _ _) fun buf => ?_
  exact .bind (fixes_except _) fun head => fixes_pure _

theorem heldBack_between {low high : Nat} (h : e.reserved = .between low high) (hpos : 0 < high) :
    e.heldBack = .between low high := by
  have hfilter : (some high).filter (0 < ·) = some high :=
    Option.filter_eq_some_iff.2 ⟨rfl, decide_eq_true hpos⟩
  unfold heldBack
  rw [h]
  simp only [Reserved.between, hfilter]

theorem copy_houses (hb : e.occupancy.blockSize = blockSize) : Ends (copy c r) e
    (fun moved e' => moved.id = c.id ∧ moved.len = c.len ∧ Houses e r moved e') Any := by
  unfold copy
  refine (fixes_iff.1 (load_plan c) e).bind (fun ⟨head, source⟩ e₁ h₁ => ?_) fun _ _ _ => trivial
  dsimp only
  refine (fixes_iff.1 (acquire_plan _) e₁).bind (fun buf e₂ h₂ => ?_) fun _ _ _ => trivial
  have h₂ : e₂.plan = e.plan := h₂.trans h₁
  rw [ends_bind]
  refine ends_of_checked fun framed _ => ?_
  have hb₂ : e₂.occupancy.blockSize = blockSize := by
    rw [(Prod.mk.inj h₂).1]
    exact hb
  refine (allocate_taking hb₂).bind ?_ fun _ _ hf => hf
  rintro _ e₃ ⟨start, wasteful, rfl, hroom, rfl⟩
  have hstart := toNat_block hroom.lt
  split
  · exact ends_bind.2 (ends_throw.2 trivial)
  rw [ends_bind]
  refine ends_of_checked fun framed' _ => ?_
  refine (fixes_iff.1 (write_plan _ _) _).attempted (fun _ e₄ h₄ => ?_) fun f e₄ =>
    ends_bind.2 (ends_any fun _ _ => ends_refusing)
  refine (fixes_iff.1 (release_plan _) e₄).bind (fun _ e₅ h₅ => ends_pure.2 ⟨rfl, rfl, ?_⟩)
    fun _ _ _ => trivial
  refine Houses.of_plan (d := e₂) ⟨?_, wasteful, rfl⟩ h₂ ?_
  · rwa [Chunk.first, hstart]
  · rw [Chunk.first, hstart]
    exact h₅.trans h₄

theorem relocate_rehouses (hb : e.occupancy.blockSize = blockSize) : Ends (do
    let moved ← copy c r
    freeChunk c
    return moved) e (fun moved e' => Rehouses e r c moved e') Any := by
  refine (copy_houses hb).bind ?_ fun _ _ hf => hf
  rintro moved e₁ ⟨hid, hlen, hhouses⟩
  refine (freeChunk_vacates (hhouses.blockSize_eq.trans hb)).bind ?_ fun _ _ hf => hf
  rintro _ e₂ ⟨hfilled, hplan⟩
  exact ends_pure.2 ⟨.of_houses hhouses hfilled hplan, hid, hlen⟩

theorem writeChunk_plan : Ends (writeChunk c buf) e (fun _ e' => e'.plan = e.plan) Any :=
  writeChunk_of_write ((fixes_iff.1 (write_plan _ _) e).mono (fun _ _ h => h) fun _ _ _ => trivial)

theorem place_takes : Ends (place c p) e (fun placed e' => ∃ len framed pool given e₁,
    allocateFor { c with len, size := p.size.toUInt64, liveSize := p.size.toUInt64 } framed
      { e with pool } = (.ok (placed, given), e₁) ∧ e'.plan = e₁.plan) Any := by
  refine place_of_settle (fun _ _ _ h => h) fun len framed pool _ => ?_
  refine ends_run.bind ?_ fun _ _ hf => hf
  rintro ⟨placed, given⟩ e₁ hrun
  exact writeChunk_plan.bind (fun _ e₂ h₂ => ends_pure.2 ⟨len, framed, pool, given, e₁, hrun, h₂⟩)
    fun _ _ hf => hf

theorem place_houses (hb : e.occupancy.blockSize = blockSize) : Ends (place c p) e
    (fun placed e' => placed.id = c.id ∧ 0 < placed.len.toNat ∧ Houses e e.heldBack placed e')
    Any := by
  refine place_takes.mono ?_ fun _ _ hf => hf
  rintro placed e' ⟨len, framed, pool, given, e₁, hrun, hplan⟩
  obtain ⟨⟨⟨block, next, rfl⟩, hlen, -, -, hroom⟩, wasteful, rfl⟩ :=
    (allocateFor_taking (e := { e with pool }) hb).ok _ _ hrun
  exact ⟨rfl, hlen, .of_plan (d := { e with pool }) ⟨hroom, wasteful, rfl⟩ rfl hplan⟩

/-- A chunk keeps its place while a superblock that names it becomes durable. -/
theorem publish_houses (hb : e.occupancy.blockSize = blockSize) (naming : Chunk → ByteArray) :
    Ends (do
      let root ← place c p
      sync
      write 0 (naming root)
      sync
      return root) e (fun root e' => root.id = c.id ∧ Houses e e.heldBack root e') Any := by
  refine (place_houses hb).bind ?_ fun _ _ hf => hf
  rintro root e₁ ⟨hid, -, hhouses⟩
  refine (fixes_iff.1 sync_plan e₁).bind (fun _ e₂ h₂ => ?_) fun _ _ _ => trivial
  refine (fixes_iff.1 (write_plan _ _) e₂).bind (fun _ e₃ h₃ => ?_) fun _ _ _ => trivial
  refine (fixes_iff.1 sync_plan e₃).bind (fun _ e₄ h₄ => ends_pure.2 ⟨hid, ?_⟩) fun _ _ _ => trivial
  exact hhouses.of_plan rfl (h₄.trans (h₃.trans h₂))

end BlockStore.Engine
