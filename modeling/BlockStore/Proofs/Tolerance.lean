import BlockStore.Compaction.Pass
import BlockStore.Proofs.Inventory

namespace BlockStore

open BlockStore.Action Bytes Device Engine

variable {δ κ : Type} [Device δ] [Fallible δ] [Keeper δ κ]

namespace Keeper

/-- How the keeper of a volume behaves during a compaction. -/
structure Conduct (κ : Type) where
  /-- With the file, the records stand for an inventory, and so many more stores are possible. -/
  View : Nat → κ → ByteArray → Inventory → Prop
  /-- What a call that fails leaves of this. -/
  Remains : κ → ByteArray → Inventory → Prop
  /-- Chunks that are kept but not shown. -/
  hidden : UInt32 → Prop
  /-- How many blocks a store may need. -/
  growth : Nat
  /-- How calls may fail. -/
  fails : Failure → Prop
  /-- How `register` may fail with the records as they were. -/
  stale : Failure → Prop

/-- The keeper answers from its records, follows a chunk that has moved, and does no more to store
the records than keepers may do. -/
structure Tolerant (δ : Type) [Device δ] [Fallible δ] [Keeper δ κ] (A : Conduct κ) : Prop where
  fails {f : Failure} : Fallible.refusal δ f → A.fails f
  mono {m n : Nat} {k : κ} {b : ByteArray} {D : Inventory} : A.View n k b D → m ≤ n → A.View m k b D
  remains {n : Nat} {k : κ} {b : ByteArray} {D : Inventory} : A.View n k b D → A.Remains k b D
  chunks {v : Volume δ κ} {b : ByteArray} {D : Inventory} :
    A.Remains v.records b D → v.chunks.Perm D.chunks
  chunk? {n : Nat} {v : Volume δ κ} {b : ByteArray} {D : Inventory} {id : UInt32} {c : Chunk} :
    A.View n v.records b D → (v.chunk? id = some c ↔ c ∈ D.chunks ∧ c.id = id ∧ ¬A.hidden id)
  root? {n : Nat} {v : Volume δ κ} {b : ByteArray} {D : Inventory} :
    A.View n v.records b D → v.root? = D.root
  /-- The chunks and the superblock are all that matters of the file. -/
  idle {n : Nat} {k : κ} {b b' : ByteArray} {D : Inventory} : A.View n k b D →
    (∀ c ∈ D.chunks, c.Kept b b') → Superblock.Kept b b' → A.View n k b' D
  register {n start : Nat} {k : κ} {s t : Site δ} {c : Chunk} :
    A.View n k s.bytes s.inventory → s.Sound → ¬A.hidden c.id → s.Moves c start t →
    Ends (Volume.register (c.movedTo start)) ⟨t.engine, k⟩ (fun _ w => ∃ b,
      A.View n w.records b t.inventory ∧ w.engine.appendFrom ≤ t.engine.appendFrom ∧
      Site.Steps t ⟨w.engine, b, t.inventory⟩)
      fun f w => ∃ b, (A.fails f ∧ A.Remains w.records b t.inventory ∨
        A.stale f ∧ A.Remains w.records b s.inventory) ∧ Site.Steps t ⟨w.engine, b, t.inventory⟩
  store {n : Nat} {v : Volume δ κ} {b : ByteArray} {D : Inventory} :
    A.View (n + 1) v.records b D → Site.Sound ⟨v.engine, b, D⟩ →
    (max v.engine.appendFrom (v.engine.reserved.high.getD 0) + A.growth) * blockSize <
      Fallible.room δ →
    Ends (Volume.store : Action (Volume δ κ) Unit) v (fun _ w => ∃ b' D',
      A.View n w.records b' D' ∧ Site.Steps ⟨v.engine, b, D⟩ ⟨w.engine, b', D'⟩ ∧
      w.engine.appendFrom ≤
        max v.engine.appendFrom (v.engine.reserved.high.getD 0) + A.growth)
      fun f w => A.fails f ∧ ∃ b' D',
        A.Remains w.records b' D' ∧ Site.Steps ⟨v.engine, b, D⟩ ⟨w.engine, b', D'⟩

end Keeper

open Keeper

namespace Volume

/-- What a pass does: it moves chunks that are shown, has the records stored, and syncs and cuts the
device. It ends with the first of these that fails. -/
inductive Course (hidden : UInt32 → Prop) (v : Volume δ κ) :
    Except Failure Unit → Volume δ κ → Prop
  | start : Course hidden v (.ok ()) v
  | move {w u : Volume δ κ} {id : UInt32} {r : Reserved} {c : Chunk}
    {out : Except Failure (Option Chunk)} : Course hidden v (.ok ()) w → w.chunk? id = some c →
    c.id = id → ¬hidden id → Volume.move id r w = (out, u) →
    Course hidden v (out.map fun _ => ()) u
  | store {w u : Volume δ κ} {r : Reserved} {out : Except Failure Unit} :
    Course hidden v (.ok ()) w → Volume.storeReserving r w = (out, u) →
    Course hidden v (out.map fun _ => ()) u
  | sync {w u : Volume δ κ} {out : Except Failure Unit} : Course hidden v (.ok ()) w →
    Volume.onEngine Engine.sync w = (out, u) → Course hidden v (out.map fun _ => ()) u
  | shrink {w u : Volume δ κ} {percent : Nat} {out : Except Failure Bool} :
    Course hidden v (.ok ()) w → Volume.onEngine (Engine.shrink percent) w = (out, u) →
    Course hidden v (out.map fun _ => ()) u

/-- The keeper sees the site, which is sound and descends from `s₀`. -/
structure Seen (A : Conduct κ) (s₀ : Site δ) (n : Nat) (v : Volume δ κ) (b : ByteArray)
    (D : Inventory) : Prop where
  view : A.View n v.records b D
  sound : Site.Sound ⟨v.engine, b, D⟩
  descends : Site.Descends A.hidden s₀ ⟨v.engine, b, D⟩

/-- A call has failed in a site that is sound and descends from `s₀`. -/
structure Left (A : Conduct κ) (s₀ : Site δ) (v : Volume δ κ) (b : ByteArray) (D : Inventory) :
    Prop where
  remains : A.Remains v.records b D
  sound : Site.Sound ⟨v.engine, b, D⟩
  descends : Site.Descends A.hidden s₀ ⟨v.engine, b, D⟩

/-- What a call that fails leaves behind. Only if `register` fails with the records as they were, they
do not know of the new place of one chunk. -/
def Torn (A : Conduct κ) (s₀ : Site δ) (f : Failure) (v : Volume δ κ) : Prop :=
  A.fails f ∧ (∃ b D, Left A s₀ v b D) ∨
  A.stale f ∧ ∃ b D c start, c ∈ D.chunks ∧ A.Remains v.records b D ∧
    Site.Sound ⟨v.engine, b, D.relocate (c.movedTo start)⟩ ∧
    Site.Descends A.hidden s₀ ⟨v.engine, b, D.relocate (c.movedTo start)⟩

/-- A pass that began at `v₀` with the site `s₀` has come to `v`. -/
structure Under (A : Conduct κ) (v₀ : Volume δ κ) (s₀ : Site δ) (n : Nat) (v : Volume δ κ)
    (b : ByteArray) (D : Inventory) : Prop extends Seen A s₀ n v b D where
  course : Course A.hidden v₀ (.ok ()) v

/-- A pass that began at `v₀` with the site `s₀` has failed. -/
structure Broken (A : Conduct κ) (v₀ : Volume δ κ) (s₀ : Site δ) (f : Failure) (v : Volume δ κ) :
    Prop where
  course : Course A.hidden v₀ (.error f) v
  torn : Torn A s₀ f v

variable {A : Conduct κ} {v₀ v w : Volume δ κ} {s₀ : Site δ} {m n start boundary top : Nat}
  {b b' : ByteArray} {D D' : Inventory} {c : Chunk} {id : UInt32} {r : Reserved} {e : Engine δ}

/-- One more action along a course. -/
theorem Under.extend {α : Type} {act : Action (Volume δ κ) α} {Q : α → Volume δ κ → Prop}
    (hnext : ∀ out w, act v = (out, w) → Course A.hidden v₀ (out.map fun _ => ()) w)
    (h : Ends act v (fun a w => Q a w ∧ ∃ b D, Seen A s₀ n w b D) (Torn A s₀)) :
    Ends act v (fun a w => Q a w ∧ ∃ b D, Under A v₀ s₀ n w b D) (Broken A v₀ s₀) := by
  constructor
  · intro a w hrun
    obtain ⟨hq, b, D, hs⟩ := h.ok a w hrun
    exact ⟨hq, b, D, hs, hnext _ w hrun⟩
  · exact fun f w hrun => ⟨hnext _ w hrun, h.error f w hrun⟩

namespace Seen

omit [Keeper δ κ] in
theorem steps (h : Seen A s₀ n v b D) (hview : A.View m w.records b' D')
    (hs : Site.Steps ⟨v.engine, b, D⟩ ⟨w.engine, b', D'⟩) : Seen A s₀ m w b' D' :=
  ⟨hview, hs.sound h.sound, h.descends.trans (hs.descends h.sound)⟩

omit [Keeper δ κ] in
theorem fall (h : Seen A s₀ n v b D) (hremains : A.Remains w.records b' D')
    (hs : Site.Steps ⟨v.engine, b, D⟩ ⟨w.engine, b', D'⟩) : Left A s₀ w b' D' :=
  ⟨hremains, hs.sound h.sound, h.descends.trans (hs.descends h.sound)⟩

theorem torn (hA : Tolerant δ A) {f : Failure} (h : Seen A s₀ n v b D)
    (hs : v.engine.Spared b f e) : Torn A s₀ f ⟨e, v.records⟩ :=
  .inl ⟨hA.fails hs.1, b, D, h.fall (hA.remains h.view)
    (.single (.of_spared (s := ⟨v.engine, b, D⟩) hs))⟩

theorem rests (hA : Tolerant δ A) (h : Seen A s₀ n v b D) (hr : v.engine.Rests b' e)
    (hkept : ∀ c ∈ D.chunks, c.Kept b b') (hsuper : Superblock.Kept b b') :
    Seen A s₀ n ⟨e, v.records⟩ b' D :=
  h.steps (hA.idle h.view hkept hsuper) (.single (.of_rests (s := ⟨v.engine, b, D⟩) hr hkept))

theorem mem_of_chunk? (hA : Tolerant δ A) (h : Seen A s₀ n v b D) (hfind : v.chunk? id = some c) :
    c ∈ D.chunks ∧ c.id = id ∧ ¬A.hidden id := (hA.chunk? h.view).1 hfind

end Seen

/-- A sync changes nothing. -/
theorem sync_endures (hA : Tolerant δ A) (h : Under A v₀ s₀ n v b D) :
    Ends (onEngine Engine.sync) v (fun _ w => w.engine.appendFrom ≤ v.engine.appendFrom ∧
      ∃ b D, Under A v₀ s₀ n w b D) (Broken A v₀ s₀) := by
  refine Under.extend (fun _ _ hrun => h.course.sync hrun) ?_
  rw [onEngine, ends_within]
  refine (Engine.sync_endures h.sound.has).mono (fun _ e he => ?_) fun _ e he => h.torn hA he.spared
  refine ⟨Nat.le_of_eq ?_, b, D, h.rests hA he (fun _ _ _ _ hb => hb) (.refl b)⟩
  rw [appendFrom, appendFrom, size_of_has he.has, size_of_has h.sound.has, he.occupancy]

theorem shrink_endures (hA : Tolerant δ A) (h : Under A v₀ s₀ n v b D) {percent : Nat}
    (hroom : v.engine.appendFrom * blockSize * 100 < UInt64.size) :
    Ends (onEngine (Engine.shrink percent)) v (fun _ w => True ∧ ∃ b D, Under A v₀ s₀ n w b D)
      (Broken A v₀ s₀) := by
  have hstop : v.engine.occupancy.stop ≤ v.engine.appendFrom := Nat.le_max_right _ _
  refine Under.extend (fun _ _ hrun => h.course.shrink hrun) ?_
  rw [onEngine, ends_within]
  refine (Engine.shrink_endures h.sound.has h.sound.lodged.blockSize ?_).mono (fun _ e he => ?_)
    fun _ e he => h.torn hA he.spared
  · simp only [mul_blockSize] at *
    omega
  · rcases he with he | he
    · exact ⟨trivial, b, D, h.rests hA he (fun _ _ _ _ hb => hb) (.refl b)⟩
    · refine ⟨trivial, _, D, h.rests hA he (fun c hc => Chunk.kept_of_spares (Chunk.spares_cut
        (h.sound.lodged.after_le_stop (Inventory.mem_held_of_chunks hc)))) ?_⟩
      refine Superblock.kept_of_avoids ?_
      rw [Change.Avoids, Nat.zero_add, headerBytes]
      exact Nat.mul_le_mul_right _ h.sound.lodged.header_le_stop

/-- Where a move may go. -/
structure CanMove (v : Volume δ κ) (c : Chunk) (r : Reserved) (start : Nat) : Prop where
  preview : v.engine.occupancy.preview c.len.toNat r = .ok start
  ceiling : (v.engine.occupancy.ceiling r + c.len.toNat) * blockSize < UInt64.size
  room : (start + c.len.toNat) * blockSize < Fallible.room δ
  back : r.high = none → start ≤ c.first

omit [Keeper δ κ] in
theorem appendFrom_of_relocates {p : ByteArray} (h : v.engine.Relocates b c p start b' e)
    (hb : v.engine.Has b) : e.appendFrom ≤ max v.engine.appendFrom (start + c.len.toNat) := by
  obtain ⟨data, hdata, hb'⟩ := h.change
  obtain ⟨wasteful, hocc⟩ := h.occupancy
  have hv := appendFrom_le_iff.1 (Nat.le_refl v.engine.appendFrom)
  rw [appendFrom_le_iff, size_of_has h.has, hb', Change.size_apply_write, hdata, Chunk.byteLen,
    ← size_of_has hb]
  refine ⟨?_, Occupancy.stop_le fun i hi => ?_⟩
  · simp only [mul_blockSize] at *
    omega
  · rw [hocc] at hi
    have hi := (Bitmap.mem_eraseRange.1 hi).1
    rcases Bitmap.mem_insertRange.1 hi with hi | hi
    · have := Occupancy.lt_stop hi
      omega
    · omega

theorem move_endures (hA : Tolerant δ A) (h : Under A v₀ s₀ n v b D)
    (hfind : v.chunk? id = some c) (hmove : CanMove v c r start) :
    Ends (move id r) v (fun out w => (out = some (c.movedTo start) ∧
      w.engine.appendFrom ≤ max v.engine.appendFrom (start + c.len.toNat)) ∧
      ∃ b D, Under A v₀ s₀ n w b D) (Broken A v₀ s₀) := by
  obtain ⟨hc, hid, hshown⟩ := h.mem_of_chunk? hA hfind
  have hshown' : ¬A.hidden c.id := hid ▸ hshown
  have hlt := room_lt_word (δ := δ)
  have hroom := hmove.room
  have hceil := hmove.ceiling
  obtain ⟨rest, hrest⟩ := Inventory.exists_perm hc
  have hl := h.sound.lodged.perm (hrest.append_right D.loose)
  have hn := hl.len_pos c List.mem_cons_self
  obtain ⟨p, hp⟩ := h.sound.sealed c hc
  have hstart : start < UInt64.size := by simp only [mul_blockSize] at *; omega
  obtain ⟨-, hvacant, -⟩ := Occupancy.of_preview hn (by simp only [mul_blockSize] at *; omega)
    hmove.preview
  refine Under.extend (fun _ _ hrun => h.course.move hfind hid hshown hrun) ?_
  unfold move
  rw [ends_bind, ends_get, hfind]
  dsimp only
  rw [ends_bind, onEngine, ends_within]
  refine (relocate_endures h.sound.has hl hp hceil hmove.preview hroom hmove.back).mono ?_
    fun _ _ hf => h.torn hA hf
  rintro _ e ⟨rfl, b₁, hmoved⟩
  have hmoves : Site.Moves ⟨v.engine, b, D⟩ c start ⟨e, b₁, D.relocate (c.movedTo start)⟩ :=
    ⟨hc, hvacant, hstart, ⟨p, hp, hmoved⟩, rfl⟩
  have hsound := hmoves.sound h.sound
  have hdescends := h.descends.trans (hmoves.descends h.sound hshown')
  have happend := appendFrom_of_relocates hmoved h.sound.has
  refine (hA.register h.view h.sound hshown' hmoves).bind ?_ ?_
  · rintro _ w ⟨b₂, hview, hle, hsteps⟩
    exact ends_pure.2 ⟨⟨rfl, Nat.le_trans hle happend⟩, b₂, _, hview, hsteps.sound hsound,
      hdescends.trans (hsteps.descends hsound)⟩
  · rintro f w ⟨b₂, ⟨hf, hremains⟩ | ⟨hf, hremains⟩, hsteps⟩
    · exact .inl ⟨hf, b₂, _, hremains, hsteps.sound hsound,
        hdescends.trans (hsteps.descends hsound)⟩
    · exact .inr ⟨hf, b₂, D, c, start, hc, hremains, hsteps.sound hsound,
        hdescends.trans (hsteps.descends hsound)⟩

omit [Fallible δ] in
/-- There is nothing to move under an id that is not shown. -/
theorem move_endures_none (hfind : v.chunk? id = none) :
    Ends (move id r) v (fun out w => out = none ∧ v = w) fun _ _ => False := by
  unfold move
  rw [ends_bind, ends_get, hfind]
  exact ends_pure.2 ⟨rfl, rfl⟩

/-- The records are stored while `r` is closed to new chunks. -/
theorem storeReserving_endures (hA : Tolerant δ A) (h : Under A v₀ s₀ (n + 1) v b D)
    (hroom : (max v.engine.appendFrom (r.high.getD 0) + A.growth) * blockSize < Fallible.room δ) :
    Ends (storeReserving r) v (fun _ w =>
      w.engine.appendFrom ≤ max v.engine.appendFrom (r.high.getD 0) + A.growth ∧
      ∃ b D, Under A v₀ s₀ n w b D) (Broken A v₀ s₀) := by
  obtain ⟨⟨hview, ⟨hhas, hlodged, hsealed, hids, hpast⟩, hdescends⟩, hcourse⟩ := h
  refine Under.extend (fun _ _ hrun => hcourse.store hrun) ?_
  have hsound : Site.Sound (δ := δ) ⟨{ v.engine with reserved := r }, b, D⟩ :=
    ⟨hhas, hlodged, hsealed, hids, hpast⟩
  have hseen : Seen A s₀ (n + 1) (⟨{ v.engine with reserved := r }, v.records⟩ : Volume δ κ) b D :=
    ⟨hview, hsound, hdescends.past, hdescends.kept⟩
  -- The reservation is lifted again however the keeper ends.
  have hlift {w : Volume δ κ} {b' : ByteArray} {D' : Inventory} (hs : Site.Sound ⟨w.engine, b', D'⟩) :
      Site.Sound (δ := δ) ⟨{ w.engine with reserved := .nothing }, b', D'⟩ :=
    ⟨hs.has, hs.lodged, hs.sealed, hs.ids_nodup, hs.past⟩
  unfold storeReserving
  rw [ends_bind, ends_modify, ends_bind, ends_attempt]
  refine (hA.store (v := ⟨{ v.engine with reserved := r }, v.records⟩) hview hsound hroom).mono ?_ ?_
  · rintro _ w ⟨b', D', hview', hsteps, hle⟩
    rw [ends_bind, ends_modify]
    have hw := hseen.steps hview' hsteps
    exact ends_pure.2 ⟨hle, b', D', hw.view, hlift hw.sound, hw.descends.past, hw.descends.kept⟩
  · rintro f w ⟨hf, b', D', hremains, hsteps⟩
    cases f with
    | fault f => exact .inl ⟨hf, b', D', hseen.fall hremains hsteps⟩
    | error cause =>
      dsimp only
      rw [ends_bind, ends_modify]
      have hw := hseen.fall hremains hsteps
      exact ends_refuse.2 (.inl ⟨hf, b', D', hw.remains, hlift hw.sound, hw.descends.past,
        hw.descends.kept⟩)

/-- A chunk goes before a boundary if there is room for it, or stays. -/
theorem moveBelow_endures (hA : Tolerant δ A) (h : Under A v₀ s₀ n v b D)
    (hroom : 2 * v.engine.appendFrom * blockSize < UInt64.size) :
    Ends (moveBelow id boundary) v (fun _ w => w.engine.appendFrom ≤ v.engine.appendFrom ∧
      ∃ b D, Under A v₀ s₀ n w b D) (Broken A v₀ s₀) := by
  have hstays : v.engine.appendFrom ≤ v.engine.appendFrom ∧ ∃ b D, Under A v₀ s₀ n v b D :=
    ⟨Nat.le_refl _, b, D, h⟩
  have hstop : v.engine.occupancy.stop ≤ v.engine.appendFrom := Nat.le_max_right _ _
  unfold moveBelow
  rw [ends_bind, ends_get]
  cases hfind : v.chunk? id with
  | none => exact ends_pure.2 hstays
  | some c =>
    obtain ⟨hc, hid, -⟩ := h.mem_of_chunk? hA hfind
    have hafter := h.sound.lodged.after_le_stop (Inventory.mem_held_of_chunks hc)
    have hn := h.sound.lodged.len_pos c (Inventory.mem_held_of_chunks hc)
    have hsize := Fallible.size_lt h.sound.has
    obtain ⟨p, hp⟩ := h.sound.sealed c hc
    have hend := hp.after_le
    have hceil : v.engine.occupancy.ceiling (.above boundary) = v.engine.occupancy.stop :=
      Nat.max_eq_left (Nat.zero_le _)
    rw [Chunk.after_eq] at hafter hend
    dsimp only at hafter hsize hend ⊢
    split
    · exact ends_pure.2 hstays
    next hfirst =>
    have hfirst : boundary ≤ c.first := Nat.le_of_not_lt hfirst
    obtain ⟨target, hpreview, -, -, hout⟩ := Occupancy.preview_spec (o := v.engine.occupancy)
      (r := .above boundary) hn (by
        rw [hceil]
        simp only [mul_blockSize] at *
        omega)
    rw [ends_bind, ends_get, ends_bind, ends_checked hpreview]
    split
    · exact ends_pure.2 hstays
    next htarget =>
    have hle : target + c.len.toNat ≤ boundary := by
      simp only [Occupancy.Outside, Reserved.above] at hout
      omega
    have hmove : CanMove v c (.above boundary) target := by
      refine ⟨hpreview, ?_, ?_, fun _ => by omega⟩
      · rw [hceil]
        simp only [mul_blockSize] at *
        omega
      · simp only [mul_blockSize] at *
        omega
    rw [hid]
    refine (move_endures hA h hfind hmove).bind ?_ fun _ _ hf => hf
    rintro _ w ⟨⟨rfl, happend⟩, hw⟩
    have hmoved : (c.movedTo target).first = target :=
      c.first_movedTo (by simp only [mul_blockSize] at *; omega)
    have hstop' : (c.movedTo target).stop = .ok (target + c.len.toNat) := by
      have hafter' : (c.movedTo target).after = target + c.len.toNat := by
        rw [Chunk.after_eq, hmoved]
        rfl
      rw [← hafter']
      exact Chunk.stop_eq (by rw [hafter']; simp only [mul_blockSize] at *; omega)
    dsimp only
    rw [ends_bind, ends_checked hstop', if_neg (by omega)]
    exact ends_pure.2 ⟨by omega, hw⟩

end Volume

end BlockStore
