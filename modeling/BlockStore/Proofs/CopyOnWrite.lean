import BlockStore.Proofs.CatalogKeeper
import BlockStore.Proofs.Selection
import BlockStore.Proofs.Stages

namespace BlockStore

open BlockStore.Action Device Engine

/-- The blocks of `used` that have become free lie from `low` on. -/
def Pinned (used : Bitmap) (low : Nat) (o : Occupancy) : Prop := ∀ b ∈ used, b ∈ o.used ∨ low ≤ b

/-- Under `r` no allocation takes blocks of `used` from `low` on. -/
def Closes (r : Reserved) (used : Bitmap) (low : Nat) : Prop :=
  used.length = 0 ∨ r = .between low used.length

variable {δ κ : Type} {used : Bitmap} {low start n : Nat} {o : Occupancy} {r : Reserved}

theorem pinned_self (o : Occupancy) (low : Nat) : Pinned o.used low o := fun _ hb => .inl hb

/-- Whatever has been freed, an allocation does not get it while it is closed. -/
theorem Pinned.not_mem (hp : Pinned used low o) (hr : Closes r used low) (hv : o.Vacant start n)
    (ho : o.Outside r start n) {b : Nat} (h1 : start ≤ b) (h2 : b < start + n) : b ∉ used := by
  intro hb
  have hlen := Bitmap.lt_length_of_mem hb
  have hlow := (hp b hb).resolve_left (hv b h1 h2)
  rcases hr with hr | rfl
  · omega
  · rcases ho with ho | ho
    · omega
    · simp only [Reserved.between] at ho
      omega

theorem Closes.heldBack [Device δ] {e : Engine δ} (h : Closes e.reserved used low) :
    Closes e.heldBack used low := by
  by_cases hlen : used.length = 0
  · exact .inl hlen
  · have hr := h.resolve_left hlen
    have hpos : (some used.length).filter (0 < ·) = some used.length :=
      Option.filter_eq_some_iff.2 ⟨rfl, decide_eq_true (Nat.pos_of_ne_zero hlen)⟩
    refine .inr ?_
    unfold Engine.heldBack
    rw [hr]
    simp only [Reserved.between, hpos]

theorem spares_of_covers {c : Chunk} {data : ByteArray} (hsize : data.size = c.byteLen)
    (hc : ∀ b, c.Covers b → b ∉ used) :
    (Record.wrote (c.first * blockSize) data).Spares used := by
  refine .inr fun b hb => ?_
  have hnot : ¬c.Covers b := fun h => hc b h hb
  rw [hsize, Chunk.byteLen]
  simp only [Chunk.Covers, Chunk.after_eq, not_and, not_lt, mul_blockSize] at *
  omega

variable [Device δ]

/-- From `e` to `e'` nothing has been written onto blocks of `used`. -/
def Writes (used : Bitmap) (e e' : Engine (Recorder δ)) : Prop :=
  ∃ new, e'.device.log = e.device.log ++ new ∧ ∀ x ∈ new, x.Spares used

omit [Device δ] in
theorem Writes.refl (used : Bitmap) (e : Engine (Recorder δ)) : Writes used e e :=
  ⟨[], (List.append_nil _).symm, nofun⟩

omit [Device δ] in
theorem Writes.trans {e e₁ e₂ : Engine (Recorder δ)} (h : Writes used e e₁)
    (h' : Writes used e₁ e₂) : Writes used e e₂ := by
  obtain ⟨new, hlog, hnew⟩ := h
  obtain ⟨new', hlog', hnew'⟩ := h'
  refine ⟨new ++ new', by rw [hlog', hlog, List.append_assoc], fun x hx => ?_⟩
  exact (List.mem_append.1 hx).elim (hnew x) (hnew' x)

omit [Device δ] in
theorem Engine.Alters.writes {e e₁ : Engine (Recorder δ)} {new : List Record} (h : Alters e o new e₁)
    (hnew : ∀ x ∈ new, x.Spares used) : Writes used e e₁ := ⟨new, h.log, hnew⟩

/-- How a keeper leaves an engine that protects `used`. -/
structure Engine.Served (used : Bitmap) (low : Nat) (e : Engine (Recorder δ)) (freed : Bool)
    (placed : List (Chunk × ByteArray)) (e' : Engine (Recorder δ)) : Prop where
  blockSize : e'.occupancy.blockSize = blockSize
  reserved : e'.reserved = e.reserved
  pinned : freed = false → Pinned used low e'.occupancy
  placed : ∀ p ∈ placed, p.2.size = p.1.byteLen ∧ ∀ b, p.1.Covers b → b ∉ used
  writes : Writes used e e'

theorem Engine.Serves.served {e e' : Engine (Recorder δ)} {freed : Bool}
    {placed : List (Chunk × ByteArray)} (h : e.Serves freed placed e')
    (hb : e.occupancy.blockSize = blockSize) (hp : Pinned used low e.occupancy)
    (hr : placed ≠ [] → Closes e.reserved used low) : Served used low e freed placed e' := by
  induction h with
  | start => exact ⟨hb, rfl, fun _ => hp, nofun, .refl used e⟩
  | allocate h hrun ih =>
    have hr := hr (List.cons_ne_nil _ _)
    have ih := ih fun _ => hr
    obtain ⟨-, hsize, hv, ho, w, ha⟩ := (allocateFor_grants ih.blockSize).ok _ _ hrun
    have hclosed : Closes (Engine.heldBack _) used low := Closes.heldBack (ih.reserved ▸ hr)
    refine ⟨by rw [ha.occupancy]; exact ih.blockSize, ha.reserved.trans ih.reserved, fun _ b hb => ?_,
      List.forall_mem_cons.2 ⟨⟨hsize, fun b hc => ?_⟩, ih.placed⟩, ih.writes.trans (ha.writes nofun)⟩
    · rw [ha.occupancy]
      exact (ih.pinned rfl b hb).imp_left fun hm => Bitmap.mem_insertRange.2 (.inl hm)
    · exact (ih.pinned rfl).not_mem hclosed hv ho hc.1 hc.2
  | write h hmem hrun ih =>
    have ih := ih hr
    have ha := writeChunk_alters.ok _ _ hrun
    obtain ⟨hsize, hc⟩ := ih.placed _ hmem
    refine ⟨ha.occupancy ▸ ih.blockSize, ha.reserved.trans ih.reserved,
      fun hf => ha.occupancy ▸ ih.pinned hf, ih.placed, ih.writes.trans (ha.writes ?_)⟩
    exact List.forall_mem_singleton.2 (spares_of_covers hsize hc)
  | free h hrun ih =>
    have ih := ih hr
    have ha := (freeChunk_frees ih.blockSize).ok _ _ hrun
    exact ⟨by rw [ha.occupancy]; exact ih.blockSize, ha.reserved.trans ih.reserved, nofun, ih.placed,
      ih.writes.trans (ha.writes nofun)⟩
  | header h hno hlt hrun ih =>
    have ih := ih hr
    have ha := write_alters.ok _ _ hrun
    exact ⟨ha.occupancy ▸ ih.blockSize, ha.reserved.trans ih.reserved,
      fun hf => ha.occupancy ▸ ih.pinned hf, ih.placed,
      ih.writes.trans (ha.writes (List.forall_mem_singleton.2 (.inl ⟨hno, hlt⟩)))⟩
  | idle h hidle ih =>
    have ih := ih hr
    exact ⟨hidle.occupancy ▸ ih.blockSize, hidle.reserved.trans ih.reserved,
      fun hf => hidle.occupancy ▸ ih.pinned hf, ih.placed, ih.writes.trans (hidle.writes nofun)⟩

namespace Volume

/-- The way of a volume since its device had written down `log`, while `used` is protected. -/
structure Safe (used : Bitmap) (low : Nat) (log : List Record) (v : Volume (Recorder δ) κ) : Prop where
  blockSize : v.engine.occupancy.blockSize = blockSize
  pinned : Pinned used low v.engine.occupancy
  writes : ∃ new, v.engine.device.log = log ++ new ∧ ∀ x ∈ new, x.Spares used

variable {Sound : κ → Prop} {log : List Record} {v w : Volume (Recorder δ) κ} {id : UInt32}
  {boundary : Nat}

omit [Device δ] in
theorem Safe.self (hb : v.engine.occupancy.blockSize = BlockStore.blockSize) (low : Nat) :
    Safe v.engine.occupancy.used low v.engine.device.log v :=
  ⟨hb, pinned_self _ low, [], (List.append_nil _).symm, nofun⟩

omit [Device δ] in
theorem Safe.step (h : Safe used low log v)
    (hb : w.engine.occupancy.blockSize = BlockStore.blockSize)
    (hp : Pinned used low w.engine.occupancy) (hw : Writes used v.engine w.engine) :
    Safe used low log w := by
  obtain ⟨new, hlog, hnew⟩ := h.writes
  obtain ⟨new', hlog', hnew'⟩ := hw
  refine ⟨hb, hp, new ++ new', by rw [hlog', hlog, List.append_assoc], fun x hx => ?_⟩
  exact (List.mem_append.1 hx).elim (hnew x) (hnew' x)

omit [Device δ] in
theorem Safe.idle (h : Safe used low log v) (hi : v.engine.Idle w.engine) : Safe used low log w :=
  h.step (hi.occupancy ▸ h.blockSize) (hi.occupancy ▸ h.pinned) (hi.writes nofun)

/-- A chunk that moves takes free blocks and gives its own back. It is safe for `used` if its old
blocks lie from `low` on and the new ones are none of `used`. -/
theorem move_ends [Exact δ] [Keeper (Recorder δ) κ] (hk : Keeper.Registers δ κ Sound)
    (hs : Sound v.records) (h : Safe used low log v)
    (hlow : ∀ c, v.chunk? id = some c → low ≤ c.first) (r : Reserved) :
    Ends (move id r) v (fun out w => Sound w.records ∧ w.chunk? id = out ∧
      (∀ i, i ≠ id → w.chunk? i = v.chunk? i) ∧ out.isSome = (v.chunk? id).isSome ∧
      (out = none → Safe used low log w) ∧
      ∀ moved ∈ out, v.engine.occupancy.Vacant moved.first moved.len.toNat ∧
        v.engine.occupancy.Outside r moved.first moved.len.toNat ∧
        ((∀ b, moved.Covers b → b ∉ used) → Safe used low log w)) Any := by
  unfold move
  rw [ends_bind, ends_get]
  cases hc : v.chunk? id with
  | none => exact ends_pure.2 ⟨hs, hc, fun _ _ => rfl, rfl, fun _ => h, fun _ hm => by cases hm⟩
  | some c =>
    have hid := hk.id_eq hc
    dsimp only
    rw [ends_bind, onEngine, ends_within, ends_bind]
    refine (copy_grants h.blockSize).mono ?_ fun _ _ hf => hf
    rintro moved e₁ ⟨hmid, hlen, framed, hsize, hv, ho, wasteful, ha⟩
    have hb₁ : e₁.occupancy.blockSize = BlockStore.blockSize := by
      rw [ha.occupancy]
      exact h.blockSize
    rw [ends_bind]
    refine (freeChunk_frees hb₁).mono ?_ fun _ _ hf => hf
    intro _ e₂ ha₂
    rw [ends_pure, ends_bind]
    have hpinned : Pinned used low e₂.occupancy := by
      intro b hb
      by_cases hcov : c.Covers b
      · exact .inr (Nat.le_trans (hlow c hc) hcov.1)
      · refine (h.pinned b hb).imp_left fun hm => ?_
        rw [ha₂.occupancy, ha.occupancy]
        exact Bitmap.mem_eraseRange.2 ⟨Bitmap.mem_insertRange.2 (.inl hm), hcov⟩
    have hsame : (⟨e₂, v.records⟩ : Volume (Recorder δ) κ).chunk? = v.chunk? := hk.lookup rfl
    refine (hk.register (v := ⟨e₂, v.records⟩) hs).mono ?_ fun _ _ hf => hf
    rintro _ w ⟨hsound, hserves, hne, heq⟩
    rw [hsame] at hne heq
    have hserved := hserves.served (by rw [ha₂.occupancy]; exact hb₁) hpinned (absurd rfl)
    refine ends_pure.2 ⟨hsound, ?_, fun i hi => hne i (hmid.trans hid ▸ hi), rfl,
      (fun hno => by cases hno), ?_⟩
    · exact hmid.trans hid ▸ heq (by rw [hmid, hid, hc]; rfl)
    · intro d hd
      obtain rfl := Option.some.inj hd
      refine ⟨hv, ho, fun hcov => ?_⟩
      refine h.step hserved.blockSize (hserved.pinned rfl) ?_
      have hcopy : Writes used v.engine e₁ := ha.writes (List.forall_mem_singleton.2
        (spares_of_covers (by rw [hsize, Chunk.byteLen, Chunk.byteLen, hlen]) hcov))
      exact (hcopy.trans (ha₂.writes (List.forall_mem_nil _))).trans hserved.writes

/-- Nothing of `used` is overwritten where the vacated blocks of it are closed. -/
theorem move_safe [Exact δ] [Keeper (Recorder δ) κ] (hk : Keeper.Registers δ κ Sound)
    (hs : Sound v.records) (h : Safe used low log v)
    (hlow : ∀ c, v.chunk? id = some c → low ≤ c.first) (hr : Closes r used low) :
    Ends (move id r) v (fun out w => Sound w.records ∧ w.chunk? id = out ∧
      (∀ i, i ≠ id → w.chunk? i = v.chunk? i) ∧ out.isSome = (v.chunk? id).isSome ∧
      Safe used low log w) Any := by
  refine (move_ends hk hs h hlow r).mono ?_ fun _ _ hf => hf
  rintro out w ⟨hsound, hout, hne, hisSome, hnone, hsome⟩
  refine ⟨hsound, hout, hne, hisSome, ?_⟩
  cases out with
  | none => exact hnone rfl
  | some moved =>
    obtain ⟨hv, ho, hsafe⟩ := hsome moved rfl
    exact hsafe fun b hb => h.pinned.not_mem hr hv ho hb.1 hb.2

/-- Nor where a chunk moves before all that has been vacated. -/
theorem moveBelow_safe [Exact δ] [Keeper (Recorder δ) κ] (hk : Keeper.Registers δ κ Sound)
    (hs : Sound v.records) (h : Safe used boundary log v) :
    Ends (moveBelow id boundary) v (fun _ w => Sound w.records ∧ Safe used boundary log w) Any := by
  unfold moveBelow
  rw [ends_bind, ends_get]
  cases hc : v.chunk? id with
  | none => exact ends_pure.2 ⟨hs, h⟩
  | some c =>
    have hid := hk.id_eq hc
    dsimp only
    by_cases hlt : c.block.toNat < boundary
    · rw [if_pos hlt]
      exact ends_pure.2 ⟨hs, h⟩
    rw [if_neg hlt, ends_bind, ends_get, ends_bind]
    refine ends_of_checked fun target _ => ?_
    by_cases hle : boundary ≤ target
    · rw [if_pos hle]
      exact ends_pure.2 ⟨hs, h⟩
    rw [if_neg hle, ends_bind]
    have hlow : ∀ d, v.chunk? c.id = some d → boundary ≤ d.first := by
      intro d hd
      obtain rfl := Option.some.inj (hc.symm.trans (hid ▸ hd))
      exact Nat.le_of_not_lt hlt
    refine (move_ends hk hs h hlow _).mono ?_ fun _ _ hf => hf
    rintro out w ⟨hsound, -, -, -, hnone, hsome⟩
    cases out with
    | none => exact ends_pure.2 ⟨hsound, hnone rfl⟩
    | some moved =>
      obtain ⟨hv, -, hsafe⟩ := hsome moved rfl
      dsimp only
      rw [ends_bind]
      refine ends_of_checked fun stop hstop => ?_
      obtain ⟨-, rfl⟩ := word64_eq_ok.1 hstop
      by_cases hbeyond : boundary < moved.block.toNat + moved.len.toNat
      · rw [if_pos hbeyond, ends_bind]
        exact ends_throw.2 trivial
      · rw [if_neg hbeyond]
        refine ends_pure.2 ⟨hsound, hsafe fun b hb hm => ?_⟩
        have hafter : b < moved.block.toNat + moved.len.toNat := hb.2
        have := (h.pinned b hm).resolve_left (hv b hb.1 hb.2)
        omega

/-- The chunks that leave their places are known at the new ones. -/
theorem evacuate_safe [Exact δ] [Keeper (Recorder δ) κ] (hk : Keeper.Registers δ κ Sound)
    (hs : Sound v.records) (h : Safe used low log v) {cs : List Chunk}
    (hnodup : (cs.map Chunk.id).Nodup)
    (hcs : ∀ c ∈ cs, ∃ d, v.chunk? c.id = some d ∧ low ≤ d.first) :
    Ends (evacuate low used.length cs) v (fun ys w => Sound w.records ∧
      Safe used low log w ∧ (ys.map Chunk.id).Nodup ∧ ∀ y ∈ ys, w.chunk? y.id = some y) Any := by
  refine (ends_evacuate hnodup (I := fun ys w => Sound w.records ∧ Safe used low log w ∧
    (∀ y ∈ ys, w.chunk? y.id = some y) ∧ ∀ id, (∀ y ∈ ys, y.id ≠ id) → w.chunk? id = v.chunk? id)
    ⟨hs, h, nofun, fun _ _ => rfl⟩ ?_).mono
    (fun ys w ⟨hids, hsound, hsafe, hys, _⟩ => ⟨hsound, hsafe, hids ▸ hnodup, hys⟩) fun _ _ hf => hf
  rintro c hc ys w hne ⟨hsound, hsafe, hys, hothers⟩
  obtain ⟨d, hd, hlow⟩ := hcs c hc
  have hfind : w.chunk? c.id = some d := (hothers c.id hne).trans hd
  refine (move_safe hk hsound hsafe (fun d' hd' => ?_) (.inr rfl)).mono ?_ fun _ _ hf => hf
  · rwa [Option.some.inj (hd'.symm.trans hfind)]
  rintro out u ⟨hsound, hout, hsame, hisSome, hsafe⟩
  obtain ⟨moved, rfl⟩ := Option.isSome_iff_exists.1 (hisSome.trans (by rw [hfind]; rfl))
  have hid : moved.id = c.id := hk.id_eq hout
  refine ⟨hid, hsound, hsafe, List.forall_mem_append.2 ⟨fun y hy => ?_, ?_⟩, fun id hids => ?_⟩
  · rw [hsame y.id (hne y hy)]
    exact hys y hy
  · exact List.forall_mem_singleton.2 (hid ▸ hout)
  · obtain ⟨hids, hmoved⟩ := List.forall_mem_append.1 hids
    have hmoved : moved.id ≠ id := hmoved moved List.mem_cons_self
    rw [hsame id fun heq => hmoved (hid.trans heq.symm)]
    exact hothers id hids

theorem return_safe [Exact δ] [Keeper (Recorder δ) κ] (hk : Keeper.Registers δ κ Sound)
    (hs : Sound v.records) (h : Safe used low log v) (hr : Closes r used low) {ys : List Chunk}
    (hnodup : (ys.map Chunk.id).Nodup)
    (hys : ∀ y ∈ ys, ∀ c, v.chunk? y.id = some c → low ≤ c.first) :
    Ends (ys.mapM fun y => move y.id r) v
      (fun _ w => Sound w.records ∧ Safe used low log w) Any := by
  refine (ends_mapM (I := fun todo _ w => Sound w.records ∧ Safe used low log w ∧
    (todo.map Chunk.id).Nodup ∧ ∀ y ∈ todo, ∀ c, w.chunk? y.id = some c → low ≤ c.first)
    ⟨hs, h, hnodup, hys⟩ ?_).mono (fun _ _ hq => ⟨hq.1, hq.2.1⟩) fun _ _ hf => hf
  rintro y rest _ w ⟨hsound, hsafe, hids, hrest⟩
  obtain ⟨hnot, hids⟩ := List.nodup_cons.1 hids
  refine (move_safe hk hsound hsafe (hrest y List.mem_cons_self) hr).mono ?_ fun _ _ hf => hf
  rintro _ u ⟨hsound, -, hne, -, hsafe⟩
  refine ⟨hsound, hsafe, hids, fun z hz c hc => hrest z (List.mem_cons_of_mem _ hz) c ?_⟩
  rwa [hne z.id fun heq => hnot (List.mem_map.2 ⟨z, hz, heq⟩)] at hc

/-- A store protects `used` up to its end, and from then on the blocks that it leaves in use. -/
theorem storeReserving_safe [Keeper (Recorder δ) κ] (hk : Keeper.Collaborates δ κ Sound)
    {v : Volume (Recorder δ) (Watched κ)} (hs : Sound v.records) (h : Safe used low log v)
    (hr : Closes r used low) :
    Ends (storeReserving r) v (fun _ w => Sound w.records ∧
      w.engine.occupancy.blockSize = BlockStore.blockSize ∧
      (∃ new, w.engine.device.log = log ++ new ++ [.stored w.engine.occupancy.used] ∧
        ∀ x ∈ new, x.Spares used) ∧
      ∀ id c, w.chunk? id = some c → v.chunk? id = some c ∨ v.chunk? id = none) Any := by
  have hsame (x : Volume (Recorder δ) (Watched κ)) (e : Engine (Recorder δ)) :
      (⟨e, x.records⟩ : Volume (Recorder δ) (Watched κ)).chunk? = x.chunk? := hk.watched.lookup rfl
  unfold storeReserving
  rw [ends_bind, ends_modify]
  refine Ends.attempted (hk.storeNoting_ends hs h.blockSize) ?_ fun _ _ => ends_refusing
  rintro _ u ⟨hsound, ⟨freed, placed, e, hserves, hocc, hlog⟩, hfound⟩
  have hserved := hserves.served h.blockSize h.pinned fun _ => hr
  rw [ends_bind, ends_modify]
  obtain ⟨old, hold, hspared⟩ := h.writes
  obtain ⟨new, hnew, hspares⟩ := hserved.writes
  refine ends_pure.2 ⟨hsound, hocc ▸ hserved.blockSize, ⟨old ++ new, ?_, fun x hx => ?_⟩,
    fun id c hc => ?_⟩
  · rw [← List.append_assoc, ← hold]
    exact hlog.trans (congrArg (· ++ _) hnew)
  · exact (List.mem_append.1 hx).elim (hspared x) (hspares x)
  · rw [hsame u] at hc
    exact hsame v _ ▸ hfound id c hc

/-- Once no blocks are to be protected, the device goes on with what it has written down. -/
theorem returnLast_extends [Exact δ] [Keeper (Recorder δ) κ]
    (hk : Keeper.Collaborates δ κ Sound) {v : Volume (Recorder δ) (Watched κ)}
    (hs : Sound v.records) (h : Safe {} boundary log v) (movedLate : Bool) :
    Ends (returnLast boundary movedLate) v
      (fun _ w => ∃ new, w.engine.device.log = log ++ new) Any := by
  refine ends_returnLast movedLate (I := fun w : Volume (Recorder δ) (Watched κ) =>
    Sound w.records ∧ Safe {} boundary log w) ⟨hs, h⟩
    (fun last _ => moveBelow_safe hk.watched hs h) (fun w hw => ?_) fun w hw => ?_
  · refine (storeReserving_safe hk hw.1 hw.2 (.inl (by decide))).mono ?_ fun _ _ hf => hf
    rintro _ u ⟨-, -, ⟨new, hlog, -⟩, -⟩
    exact ⟨_, hlog.trans (List.append_assoc ..)⟩
  · obtain ⟨new, hlog, -⟩ := hw.2.writes
    exact ⟨new, hlog⟩

/-- The root returns before all that the sweeps have vacated, and up to the store that follows these
blocks stay closed. -/
theorem returnRoot_guarded [Exact δ] [Keeper (Recorder δ) κ]
    (hk : Keeper.Collaborates δ κ Sound) {v : Volume (Recorder δ) (Watched κ)}
    (hs : Sound v.records) (h : Safe used low log v) (root : Chunk) (inside : Bool) :
    Ends (returnRoot root inside low used.length) v
      (fun _ w => ∃ new, w.engine.device.log = log ++ new ∧ Guarded 1 used new) Any := by
  rw [returnRoot_eq]
  refine (moveBelow_safe hk.watched hs h).bind ?_ fun _ _ hf => hf
  rintro moved v₁ ⟨hs₁, h₁⟩
  refine (storeReserving_safe hk hs₁ h₁ (.inr rfl)).bind ?_ fun _ _ hf => hf
  rintro _ v₂ ⟨hs₂, hb₂, ⟨new, hlog₂, hnew⟩, -⟩
  rw [ends_bind, onEngine, ends_within]
  refine sync_idle.mono (fun _ e₃ h₃ => ?_) fun _ _ hf => hf
  have hs₃ : Sound (⟨e₃, v₂.records⟩ : Volume (Recorder δ) (Watched κ)).records := hs₂
  have hsafe (boundary : Nat) : Safe {} boundary v₂.engine.device.log
      (⟨e₃, v₂.records⟩ : Volume (Recorder δ) (Watched κ)) :=
    ⟨h₃.occupancy ▸ hb₂, fun b hb => absurd hb (Bitmap.not_mem_empty b), [], Alters.log h₃,
      List.forall_mem_nil _⟩
  have hguarded {w : Volume (Recorder δ) (Watched κ)}
      (hw : ∃ tail, w.engine.device.log = v₂.engine.device.log ++ tail) :
      ∃ new, w.engine.device.log = log ++ new ∧ Guarded 1 used new := by
    obtain ⟨tail, htail⟩ := hw
    refine ⟨new ++ .stored v₂.engine.occupancy.used :: tail, ?_, (guarded_append hnew).2 ?_⟩
    · rw [htail, hlog₂, List.append_assoc, List.append_assoc, List.singleton_append]
    · simp only [Guarded]
  dsimp only
  split
  · rw [ends_bind, ends_pure]
    exact (returnLast_extends hk hs₃ (hsafe _) _).mono (fun _ _ => hguarded) fun _ _ hf => hf
  · refine (moveBelow_safe hk.watched hs₃ (hsafe _)).bind ?_ fun _ _ hf => hf
    rintro movedLate v₄ ⟨hs₄, h₄⟩
    exact (returnLast_extends hk hs₄ h₄ _).mono (fun _ _ => hguarded) fun _ _ hf => hf

/-- A pass protects the blocks in use at its start, then those in use after its first store. -/
theorem runPass_guarded [Exact δ] [Keeper (Recorder δ) κ] (hk : Keeper.Collaborates δ κ Sound)
    {v : Volume (Recorder δ) (Watched κ)} (hs : Sound v.records)
    (hb : v.engine.occupancy.blockSize = BlockStore.blockSize) {leftmost : Nat} {cs : List Chunk}
    (hnodup : (cs.map Chunk.id).Nodup)
    (hcs : ∀ c ∈ cs, ∃ d, v.chunk? c.id = some d ∧ leftmost ≤ d.first) :
    Ends (runPass leftmost cs) v (fun _ w => ∃ new, w.engine.device.log = v.engine.device.log ++ new ∧
      Guarded 2 v.engine.occupancy.used new) Any := by
  have hsame (x : Volume (Recorder δ) (Watched κ)) (e : Engine (Recorder δ)) :
      (⟨e, x.records⟩ : Volume (Recorder δ) (Watched κ)).chunk? = x.chunk? := hk.watched.lookup rfl
  unfold runPass
  rw [ends_bind, onEngine, ends_within]
  refine sync_idle.mono (fun _ e₁ h₁ => ?_) fun _ _ hf => hf
  have hs₁ : Sound (⟨e₁, v.records⟩ : Volume (Recorder δ) (Watched κ)).records := hs
  have hsafe₁ := (Safe.self hb leftmost).idle (w := ⟨e₁, v.records⟩) h₁
  rw [ends_bind, ends_get]
  dsimp only
  rw [h₁.occupancy]
  refine (evacuate_safe hk.watched hs₁ hsafe₁ hnodup ?_).bind ?_ fun _ _ hf => hf
  · rwa [hsame]
  rintro ys v₂ ⟨hs₂, hsafe₂, hids, hys⟩
  refine (storeReserving_safe hk hs₂ hsafe₂ (.inr rfl)).bind ?_ fun _ _ hf => hf
  rintro _ v₃ ⟨hs₃, hb₃, ⟨new, hlog₃, hnew⟩, hfound⟩
  rw [ends_bind, onEngine, ends_within]
  refine sync_idle.mono (fun _ e₄ h₄ => ?_) fun _ _ hf => hf
  have hs₄ : Sound (⟨e₄, v₃.records⟩ : Volume (Recorder δ) (Watched κ)).records := hs₃
  have hsafe₄ := (Safe.self hb₃ v.engine.occupancy.stop).idle (w := ⟨e₄, v₃.records⟩) h₄
  rw [ends_bind, ends_get, ends_bind, ends_get]
  dsimp only
  rw [h₄.occupancy]
  refine (return_safe hk.watched hs₄ hsafe₄ (.inr rfl)
    (hids.sublist (List.filter_sublist.map _)) fun y hy c hc => ?_).bind ?_ fun _ _ hf => hf
  · obtain ⟨hmem, hfirst⟩ := List.mem_filter.1 hy
    rw [hsame] at hc
    rcases hfound y.id c hc with hc | hc
    · obtain rfl := Option.some.inj ((hys y hmem).symm.trans hc)
      exact of_decide_eq_true hfirst
    · cases (hys y hmem).symm.trans hc
  rintro returned v₅ ⟨hs₅, hsafe₅⟩
  have htrim {w : Volume (Recorder δ) (Watched κ)} (hw : ∃ new, w.engine.device.log =
      v₃.engine.device.log ++ new ∧ Guarded 1 v₃.engine.occupancy.used new) :
      Ends (onEngine do
        discard (shrink 0)
        Engine.sync) w (fun _ w => ∃ new, w.engine.device.log = v.engine.device.log ++ new ∧
          Guarded 2 v.engine.occupancy.used new) Any := by
    obtain ⟨tail, htail, hguarded⟩ := hw
    rw [onEngine, ends_within, ends_bind, ends_discard]
    refine shrink_idle.mono (fun _ e₆ h₆ => ?_) fun _ _ hf => hf
    refine sync_idle.mono (fun _ e₇ h₇ => ?_) fun _ _ hf => hf
    refine ⟨new ++ .stored v₃.engine.occupancy.used :: tail, ?_, (guarded_append hnew).2 ?_⟩
    · rw [(h₆.trans h₇).log, htail, hlog₃, List.append_assoc, List.append_assoc,
        List.singleton_append]
    · simpa only [Guarded] using hguarded
  have hquiet : ∃ new, v₅.engine.device.log = v₃.engine.device.log ++ new ∧
      Guarded 1 v₃.engine.occupancy.used new := by
    obtain ⟨tail, htail, hspares⟩ := hsafe₅.writes
    refine ⟨tail, htail, ?_⟩
    rw [← List.append_nil tail]
    exact (guarded_append hspares).2 (by simp only [Guarded])
  split
  · cases root? (⟨e₄, v₃.records⟩ : Volume (Recorder δ) (Watched κ)) with
    | none => exact htrim hquiet
    | some root =>
      rw [ends_bind]
      exact (returnRoot_guarded hk hs₅ hsafe₅ root _).mono (fun _ w hw => htrim hw) fun _ _ hf => hf
  · exact htrim hquiet

/-- Whoever keeps the records: until a compaction has them stored for the second time, the chunks
written go to blocks that were not in use when it started or, after the first time, not in use
then. So no copy of a chunk that the stored records refer to is overwritten. -/
theorem compact_guarded [Exact δ] [Keeper (Recorder δ) κ] (hk : Keeper.Collaborates δ κ Sound)
    {v : Volume (Recorder δ) (Watched κ)} (hs : Sound v.records)
    (hb : v.engine.occupancy.blockSize = BlockStore.blockSize) (passBytes : Nat) :
    Ends (compact passBytes) v (fun _ w => ∃ new, w.engine.device.log = v.engine.device.log ++ new ∧
      Guarded 2 v.engine.occupancy.used new) Any := by
  unfold compact
  rw [ends_bind, ends_get, ends_bind]
  refine ends_of_checked fun first _ => ?_
  rw [ends_bind]
  refine ends_of_checked fun chosen hchosen => ?_
  obtain ⟨hsub, hsorted⟩ := Compaction.of_choose hchosen
  cases chosen with
  | nil => exact ends_pure.2 ⟨[], (List.append_nil _).symm, by simp only [Guarded]⟩
  | cons c cs =>
    have hids := Chunk.nodup_ids_of_subperm hsub (hk.watched.nodup hs)
    refine (runPass_guarded hk hs hb hids fun d hd => ?_).bind
      (fun _ _ hw => ends_pure.2 hw) fun _ _ hf => hf
    obtain ⟨e, he, hid, hfirst, -⟩ := Compaction.exists_of_choose hchosen d hd
    refine ⟨e, hid ▸ hk.watched.listed hs he, ?_⟩
    rw [hfirst]
    rcases List.mem_cons.1 hd with rfl | hd
    · exact Nat.le_refl _
    · exact (List.pairwise_cons.1 hsorted).1 d hd

/-- A store in memory with one chunk behind two free blocks, before it is compacted. -/
def gapped : Volume (Recorder Memory) (Watched Catalog) where
  engine := {
    device := ⟨{ bytes := Bytes.zeros (4 * BlockStore.blockSize) ++
      Frame.framed { id := 1, block := 4, len := 1, version := 1 } .empty }, []⟩
    settings := {}
    occupancy := ⟨headerBlocks, BlockStore.blockSize, ⟨#[0x13]⟩, []⟩
    reserved := .nothing
    reuse := true
    pool := ⟨1, []⟩ }
  records := ({ data := .ofList [{ id := 1, block := 4, len := 1, version := 1 }], nextId := 2 } : Catalog)

theorem compact_guarded_gapped : Ends (compact BlockStore.blockSize) gapped (fun _ w =>
    ∃ new, w.engine.device.log = gapped.engine.device.log ++ new ∧
      Guarded 2 gapped.engine.occupancy.used new) Any := by
  have hsound : Catalog.Distinct gapped.records := by
    refine ⟨List.nodup_singleton (1 : UInt32), fun id hid => ?_⟩
    obtain rfl : id = 1 := List.mem_singleton.1 hid
    decide
  exact compact_guarded Catalog.collaborates hsound rfl BlockStore.blockSize

end Volume

end BlockStore
