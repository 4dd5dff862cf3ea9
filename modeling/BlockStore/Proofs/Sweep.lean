import BlockStore.Proofs.Relocation
import BlockStore.Proofs.Selection

namespace BlockStore

namespace Engine

open Device

variable {δ : Type} {e : Engine δ} {r : Reserved}

/-- The engine while `r` is closed to new chunks. -/
def reserving (e : Engine δ) (r : Reserved) : Engine δ := { e with reserved := r }

theorem heldBack_reserving [Device δ] (h : e.reuse = true) :
    (e.reserving r).heldBack = .between r.low (r.high.getD 0) := by
  unfold heldBack reserving
  dsimp only
  rw [h, if_pos rfl]
  rcases r with ⟨low, _ | _ | high⟩
  · rfl
  · rfl
  · rfl

theorem ceiling_reserving [Device δ] (h : e.reuse = true) :
    e.occupancy.ceiling (e.reserving r).heldBack = max e.occupancy.stop (r.high.getD 0) := by
  rw [heldBack_reserving h]
  rfl

end Engine

namespace Store

open BlockStore.Action Engine Device

variable {δ : Type} [Device δ] [Lawful δ] {v v' : Store δ} {m : Medium} {E : Edition}
  {live committed : Contents} {shield : Nat → Prop} {c d moved : Chunk} {r : Reserved}
  {boundary low high commits top : Nat}

omit [Device δ] [Lawful δ] in
theorem Alike.of_records (hr : v'.records = v.records) (hm : v'.engine.mode = v.engine.mode) :
    Alike v v' :=
  ⟨hm, by rw [hr], by rw [hr], by rw [hr], by rw [hr], by rw [hr]⟩

omit [Device δ] [Lawful δ] in
theorem Alike.version_le (h : Alike v v') : v.records.version ≤ v'.records.version := by
  rw [h.version]
  exact UInt64.le_refl _

/-- The numbers of the store leave room for so many commits, and its blocks end at `top` or
before. -/
structure Roomy (v : Store δ) (commits top : Nat) : Prop where
  nextId : v.records.nextId.toNat + commits < UInt32.size
  version : v.records.version.toNat + commits < UInt64.size
  image : Image.headSize + Image.entrySize * v.records.data.size < UInt32.size
  stop_le : v.engine.occupancy.stop ≤ top

omit [Device δ] [Lawful δ] in
theorem Roomy.alike (h : Roomy v commits top) (ha : Alike v v') {top' : Nat}
    (hstop : v'.engine.occupancy.stop ≤ top') : Roomy v' commits top' := by
  obtain ⟨hid, hversion, himage, -⟩ := h
  rw [← ha.nextId] at hid
  rw [← ha.version] at hversion
  rw [← ha.size] at himage
  exact ⟨hid, hversion, himage, hstop⟩

omit [Device δ] [Lawful δ] in
theorem Roomy.mono {commits' top' : Nat} (h : Roomy v commits top) (hc : commits' ≤ commits)
    (ht : top ≤ top') : Roomy v commits' top' := by
  obtain ⟨hid, hversion, himage, hstop⟩ := h
  exact ⟨by omega, by omega, himage, by omega⟩

omit [Device δ] [Lawful δ] in
theorem Committed.roomy (h : Committed v v') (hv : Roomy v (commits + 1) top) {top' : Nat}
    (hstop : v'.engine.occupancy.stop ≤ top') : Roomy v' commits top' := by
  obtain ⟨hid, hversion, himage, -⟩ := hv
  refine ⟨?_, ?_, by rwa [h.data], hstop⟩
  · rw [h.nextId, UInt32.toNat_add]
    have : (1 : UInt32).toNat = 1 := rfl
    simp only [UInt32.size] at *
    omega
  · rw [h.version, UInt64.toNat_add]
    have : (1 : UInt64).toNat = 1 := rfl
    simp only [UInt64.size] at *
    omega

omit [Device δ] [Lawful δ] in
theorem Committed.version_lt (h : Committed v v') (hv : Roomy v (commits + 1) top) :
    v.records.version < v'.records.version := by
  rw [h.version]
  have := hv.version
  exact self_lt_succ_version (by omega)

theorem Roomy.canCommit (h : Roomy v (commits + 1) top)
    (hroom : (v.engine.occupancy.ceiling v.engine.heldBack + Chunk.maxBlocks) * blockSize <
      Lawful.room δ) : CanCommit v := by
  obtain ⟨hid, hversion, himage, -⟩ := h
  exact ⟨by omega, by omega, himage, hroom⟩

theorem Consistent.reserving (h : Consistent v m E live committed shield) (r : Reserved) :
    Consistent ⟨v.engine.reserving r, v.records⟩ m E live committed shield :=
  ⟨h.shows, h.layout, h.ids_nodup, h.ids_lt, h.plain, h.stop_le, h.stocks, h.settled, h.trails,
    h.root, h.version, h.clean⟩

omit [Device δ] [Lawful δ] in
/-- Blocks that were closed for a commit are open again. -/
theorem Committed.reserving (h : Committed ⟨v.engine.reserving r, v.records⟩ v')
    (hnothing : v.engine.reserved = .nothing) :
    Committed v ⟨v'.engine.reserving .nothing, v'.records⟩ := by
  have hmode : (v'.engine.reserving .nothing).mode = v.engine.mode := by
    have hs : v'.engine.settings = v.engine.settings := congrArg Mode.settings h.mode
    have hu : v'.engine.reuse = v.engine.reuse := congrArg Mode.reuse h.mode
    rw [Engine.mode, Engine.mode, ← hs, ← hu, hnothing]
    rfl
  exact ⟨hmode, h.data, h.removed, h.nextId, h.version, h.dirty, h.root⟩

/-- A commit within a compaction, with the shielded blocks closed to the root. -/
theorem storeReserving_ends (h : Consistent v m E live committed shield)
    (hreuse : v.engine.reuse = true) (hnothing : v.engine.reserved = .nothing)
    (hv : Roomy v (commits + 1) top) (hhigh : r.high.getD 0 ≤ top)
    (hroom : (top + Chunk.maxBlocks) * blockSize < Lawful.room δ)
    (hshield : ∀ b, shield b → r.low ≤ b ∧ b < r.high.getD 0) :
    Ends (Volume.storeReserving r) v (fun _ v' => Committed v v' ∧
      Roomy v' commits (top + Chunk.maxBlocks) ∧ ∃ m' E', Consistent v' m' E' live live bare)
      (CutOff committed live) := by
  have hceil := ceiling_reserving (r := r) hreuse
  have htop : max v.engine.occupancy.stop (r.high.getD 0) ≤ top := Nat.max_le.2 ⟨hv.stop_le, hhigh⟩
  have hcan : CanCommit (⟨v.engine.reserving r, v.records⟩ : Store δ) := by
    have hroomy : Roomy (⟨v.engine.reserving r, v.records⟩ : Store δ) (commits + 1) top :=
      ⟨hv.nextId, hv.version, hv.image, hv.stop_le⟩
    refine hroomy.canCommit ?_
    change (v.engine.occupancy.ceiling (v.engine.reserving r).heldBack + _) * _ < _
    rw [hceil]
    exact Nat.lt_of_le_of_lt (Nat.mul_le_mul_right _ (Nat.add_le_add_right htop _)) hroom
  unfold Volume.storeReserving
  rw [ends_bind, ends_modify, ends_bind, ends_attempt]
  change Ends (discard commit) (⟨v.engine.reserving r, v.records⟩ : Store δ) _ _
  rw [ends_discard]
  refine (commit_ends (h.reserving r) hcan fun b hb => ?_).mono ?_ ?_
  · rw [heldBack_reserving hreuse]
    exact ⟨(hshield b hb).1, _, rfl, (hshield b hb).2⟩
  · rintro _ v₁ ⟨hc, hstop, m₁, E₁, h₁⟩
    rw [ends_bind, ends_modify]
    change v₁.engine.occupancy.stop ≤
      v.engine.occupancy.ceiling (v.engine.reserving r).heldBack + _ at hstop
    rw [hceil] at hstop
    have hc' := hc.reserving hnothing
    exact ends_pure.2 ⟨hc', hc'.roomy hv (Nat.le_trans hstop (Nat.add_le_add_right htop _)), _, _,
      h₁.reserving .nothing⟩
  · intro f v₁ hcut
    cases f with
    | fault f => exact hcut
    | error e =>
      dsimp only
      rw [ends_bind, ends_modify]
      exact ends_refuse.2 hcut

/-- The root goes back before a boundary that keeps it off the shielded blocks, or stays. -/
theorem moveBelow_ends (h : Consistent v m E live committed shield) (hc : v.records.root = some c)
    (hshield : ∀ b, shield b → boundary ≤ b)
    (hroom : (v.engine.occupancy.stop + c.len.toNat) * blockSize < Lawful.room δ) :
    Ends (Volume.moveBelow c.id boundary) v (fun _ v' => Alike v v' ∧
      v'.engine.occupancy.stop ≤ v.engine.occupancy.stop ∧
      ∃ m' E', Consistent v' m' E' live committed shield) (CutOff committed live) := by
  have hlt := room_lt (δ := δ)
  have hmem : c ∈ v.records.chunks := Catalog.mem_chunks.2 (.inr hc)
  have hheld := v.records.chunks_subperm.subset hmem
  have hfind : v.chunk? c.id = some c := (Catalog.find?_eq_some h.ids_nodup).2 ⟨hmem, rfl⟩
  have hceil : v.engine.occupancy.ceiling (.above boundary) = v.engine.occupancy.stop :=
    Nat.max_eq_left (Nat.zero_le _)
  have hafter := h.layout.after_le_stop hheld
  have hstays : Alike v v ∧ v.engine.occupancy.stop ≤ v.engine.occupancy.stop ∧
      ∃ m' E', Consistent v m' E' live committed shield :=
    ⟨.refl v, Nat.le_refl _, _, _, h⟩
  unfold Volume.moveBelow
  rw [ends_bind, ends_get, hfind]
  dsimp only
  split
  · exact ends_pure.2 hstays
  next hfirst =>
  have hfirst : boundary ≤ c.first := Nat.le_of_not_lt hfirst
  obtain ⟨target, hpreview, -, -, hout⟩ := Occupancy.preview_spec (o := v.engine.occupancy)
    (r := .above boundary) (h.layout.len_pos c hheld) (by
      rw [hceil]
      simp only [mul_blockSize] at *
      omega)
  rw [ends_bind, ends_get, ends_bind, ends_checked hpreview]
  split
  · exact ends_pure.2 hstays
  next htarget =>
  have hlen := h.layout.len_pos c hheld
  rw [Chunk.after_eq] at hafter
  have hend : target + c.len.toNat ≤ boundary := by
    simp only [Occupancy.Outside, Reserved.above] at hout
    omega
  have hopen (start : Nat) (hs : v.engine.occupancy.preview c.len.toNat (.above boundary) = .ok start) :
      start = target := Except.ok.inj (hs.symm.trans hpreview)
  have hmove : CanMove v shield c (.above boundary) := by
    refine ⟨by rwa [hceil], fun start hs _ => ?_, fun start hs b hb hin => ?_⟩
    · have := hopen start hs
      omega
    · have h1 := hopen start hs
      have h2 := hshield b hb
      omega
  refine (move_ends h hfind hmove fun hdata => absurd rfl (h.root_unlike hc c hdata)).bind ?_
    fun _ _ hf => hf
  rintro _ v₁ ⟨moved, rfl, hd, hmoved, hv₁⟩
  have hle : moved.after ≤ boundary := by
    rw [Chunk.after_eq, hopen _ hd.preview, hd.len_eq]
    exact hend
  have hstop : moved.stop = .ok moved.after := Chunk.stop_eq (by
    simp only [mul_blockSize] at *
    omega)
  dsimp only
  rw [ends_bind, ends_checked hstop, if_neg (by omega)]
  refine ends_pure.2 ⟨hmoved.toAlike, ?_, hv₁⟩
  have := hmoved.stop_le
  omega

omit [Lawful δ] in
theorem moveBelow_ends_none {id : UInt32} (hfind : v.records.find? id = none) :
    Ends (Volume.moveBelow id boundary) v (fun _ v' => v = v') fun _ _ => False := by
  have hchunk : v.chunk? id = none := hfind
  unfold Volume.moveBelow
  rw [ends_bind, ends_get, hchunk]
  exact ends_pure.2 rfl

/-- The blocks from `low` up to `high`, from which chunks have gone once any has moved. -/
def vacated (low high : Nat) (any : Bool) : Nat → Prop := fun b => any = true ∧ low ≤ b ∧ b < high

theorem canMove_between {any : Bool} (hn : 0 < c.len.toNat)
    (hroom : (max v.engine.occupancy.stop high + c.len.toNat) * blockSize < Lawful.room δ) :
    CanMove v (vacated low high any) c (.between low high) := by
  have hlt := room_lt (δ := δ)
  refine ⟨hroom, nofun, fun start hp b hb hin => ?_⟩
  obtain ⟨-, -, hout⟩ := Occupancy.of_preview (o := v.engine.occupancy) hn (by
    change max v.engine.occupancy.stop high + c.len.toNat < _
    simp only [mul_blockSize] at *
    omega) hp
  simp only [Occupancy.Outside, Reserved.between] at hout
  simp only [vacated] at hb
  omega

/-- What holds while chunks leave the blocks from `low` up to `high`: those of `todo` that are kept
still lie there, and their new places end before `top`. -/
structure Sweep (v : Store δ) (live committed : Contents) (low high top : Nat) (todo : List Chunk)
    (any : Bool) (v' : Store δ) : Prop where
  alike : Alike v v'
  consistent : ∃ m E, Consistent v' m E live committed (vacated low high any)
  stop_le : max v'.engine.occupancy.stop high + (todo.map fun d => d.len.toNat).sum ≤ top
  inside : ∀ d ∈ todo, ∀ c, v'.records.find? d.id = some c →
    low ≤ c.first ∧ c.after ≤ high ∧ c.len = d.len
  nodup : (todo.map Chunk.id).Nodup

/-- What one move of a sweep leads to. -/
structure Swept (v v' : Store δ) (d : Chunk) (out : Option Chunk) : Prop where
  find?_eq : v'.records.find? d.id = out
  isSome_eq : out.isSome = (v.records.find? d.id).isSome
  find?_of_ne : ∀ id, id ≠ d.id → v'.records.find? id = v.records.find? id
  len_eq : ∀ moved, out = some moved → moved.id = d.id ∧ moved.len = d.len

namespace Sweep

variable {rest : List Chunk} {any : Bool} {v'' : Store δ}

/-- A chunk that is no longer kept is passed over. -/
theorem skip (h : Sweep v live committed low high top (d :: rest) any v')
    (hfind : v'.records.find? d.id = none) : Swept v' v' d none ∧
      Sweep v live committed low high top rest (any || (none : Option Chunk).isSome) v' := by
  obtain ⟨halike, hcons, hstop, hinside, hnodup⟩ := h
  rw [List.map_cons, List.sum_cons] at hstop
  refine ⟨⟨hfind, by rw [hfind], fun _ _ => rfl, nofun⟩, halike, ?_, by omega,
    fun e he => hinside e (List.mem_cons_of_mem _ he), (List.nodup_cons.1 hnodup).2⟩
  rw [Option.isSome_none, Bool.or_false]
  exact hcons

/-- A chunk that has moved leaves the others to be moved as they were. -/
theorem step (h : Sweep v live committed low high top (d :: rest) any v')
    (hfind : v'.records.find? d.id = some c) (hdest : Destination v' (.between low high) c moved)
    (hmoved : Moved v' v'' c moved)
    (hcons : ∃ m E, Consistent v'' m E live committed (vacated low high true)) :
    Swept v' v'' d (some moved) ∧
      Sweep v live committed low high top rest (any || (some moved).isSome) v'' := by
  obtain ⟨halike, ⟨m, E, hcons'⟩, hstop, hinside, hnodup⟩ := h
  obtain ⟨hd, hrest⟩ := List.nodup_cons.1 hnodup
  rw [List.map_cons, List.sum_cons] at hstop
  have hne (e : Chunk) (he : e ∈ rest) : e.id ≠ d.id := fun heq =>
    hd (List.mem_map.2 ⟨e, he, heq⟩)
  obtain ⟨-, -, hlen⟩ := hinside d List.mem_cons_self c hfind
  obtain ⟨-, hid⟩ := (Catalog.find?_eq_some hcons'.ids_nodup).1 hfind
  have hother (id : UInt32) (hne : id ≠ d.id) :
      v''.records.find? id = v'.records.find? id := by
    rw [hmoved.find?, if_neg (hid ▸ hne.symm)]
  refine ⟨⟨?_, by rw [hfind]; rfl, hother, ?_⟩, halike.trans hmoved.toAlike, ?_, ?_,
    fun e he => ?_, hrest⟩
  · rw [hmoved.find?, if_pos hid]
  · rintro _ ⟨⟩
    exact ⟨hdest.id_eq.trans hid, hdest.len_eq.trans hlen⟩
  · rw [Option.isSome_some, Bool.or_true]
    exact hcons
  · obtain ⟨p, hfresh⟩ := hdest.fresh
    have hceil : moved.first ≤ max v'.engine.occupancy.stop high := hfresh.le_ceiling
    have hle := hmoved.stop_le
    rw [Chunk.after_eq, hdest.len_eq, hlen] at hle
    omega
  · rw [hother e.id (hne e he)]
    exact hinside e (List.mem_cons_of_mem _ he)

theorem move_ends (h : Sweep v live committed low high top (d :: rest) any v')
    (hroom : top * blockSize < Lawful.room δ) :
    Ends (Volume.move d.id (.between low high)) v' (fun out v'' => Swept v' v'' d out ∧
      Sweep v live committed low high top rest (any || out.isSome) v'') (CutOff committed live) := by
  obtain ⟨m, E, hcons⟩ := h.consistent
  have hstop := h.stop_le
  rw [List.map_cons, List.sum_cons] at hstop
  cases hfind : v'.records.find? d.id with
  | none =>
    refine (move_ends_none hfind).mono ?_ fun _ _ => False.elim
    rintro _ _ ⟨rfl, rfl⟩
    exact h.skip hfind
  | some c =>
    obtain ⟨hlow, hhigh, hlen⟩ := h.inside d List.mem_cons_self c hfind
    obtain ⟨hmem, -⟩ := (Catalog.find?_eq_some hcons.ids_nodup).1 hfind
    have hn := hcons.layout.len_pos c (v'.records.chunks_subperm.subset hmem)
    have hcons : Consistent v' m E live committed (vacated low high true) :=
      hcons.mono fun b hb => ⟨rfl, hb.2⟩
    refine (Store.move_ends hcons hfind (canMove_between hn ?_) fun _ b hb =>
      ⟨rfl, Nat.le_trans hlow hb.1, Nat.lt_of_lt_of_le hb.2 hhigh⟩).mono ?_
      fun _ _ hf => hf
    · rw [hlen]
      exact Nat.lt_of_le_of_lt (Nat.mul_le_mul_right _ (by omega)) hroom
    · rintro _ v'' ⟨moved, rfl, hdest, hmoved, hcons''⟩
      exact h.step hfind hdest hmoved hcons''

end Sweep

end Store

end BlockStore
