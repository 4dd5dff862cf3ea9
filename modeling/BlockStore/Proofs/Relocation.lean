import BlockStore.Proofs.Commit

namespace BlockStore

open Bytes

theorem Layout.spares_header {o : Occupancy} {held : List Chunk} (h : Layout o held) {c : Chunk}
    (hc : c ∈ held) (s : Superblock) : (Change.write 0 s.toBytes).Spares c :=
  Chunk.spares_header (h.header_le c hc) s

namespace Store

open BlockStore.Action Engine Device

variable {δ : Type} [Device δ] [Lawful δ] {v : Store δ} {m m' : Medium} {E : Edition}
  {live committed : Contents} {shield shield' : Nat → Prop} {e' : Engine δ} {c moved : Chunk}
  {p : ByteArray} {r : Reserved} {id : UInt32} {start : Nat}

/-- The engine after a chunk got a copy in place of its old blocks, with the records as before. -/
structure Relocated (v : Store δ) (E : Edition) (live committed : Contents) (shield : Nat → Prop)
    (c moved : Chunk) (p : ByteArray) (m' : Medium) (e' : Engine δ) : Prop where
  shows : e'.Shows m'
  mode : e'.mode = v.engine.mode
  layout : ∀ rest, v.records.held.Perm (c :: rest) → Layout e'.occupancy (moved :: rest)
  stop_le : e'.occupancy.stop * blockSize ≤ m'.content.size
  stop_le_max : e'.occupancy.stop ≤ max v.engine.occupancy.stop moved.after
  stocks : Stocks m'.content v.records.data.chunks live
  carries : Carries m'.content moved p
  settled : E.Settled m' committed
  apart : ∀ d ∈ E.held, moved.Apart d

/-- Where a move may go: not under the shield, and back if it is to be kept below a bound. -/
structure CanMove (v : Store δ) (shield : Nat → Prop) (c : Chunk) (r : Reserved) : Prop where
  room : (v.engine.occupancy.ceiling r + c.len.toNat) * blockSize < Lawful.room δ
  back : ∀ start, v.engine.occupancy.preview c.len.toNat r = .ok start → r.high = none →
    start ≤ c.first
  clear : ∀ start, v.engine.occupancy.preview c.len.toNat r = .ok start →
    ∀ b, shield b → ¬(start ≤ b ∧ b < start + c.len.toNat)

/-- Once the copy is in place, the blocks that the chunk was on are given back. -/
theorem retire_ends (hc : c ∈ v.records.held)
    (hg : Consistent.Grown v E live committed shield (c.movedTo start) p m' e') :
    Ends (do freeChunk c; return c.movedTo start) e' (fun moved e₂ => moved = c.movedTo start ∧
      Relocated v E live committed shield c moved p m' e₂) fun _ _ => False := by
  have hlt := room_lt (δ := δ)
  obtain ⟨rest, hrest⟩ : ∃ rest, v.records.held.Perm (c :: rest) :=
    ⟨_, List.perm_cons_erase hc⟩
  have hl₁ : Layout e'.occupancy (c :: c.movedTo start :: rest) :=
    hg.layout.perm ((hrest.cons _).trans (.swap ..))
  have hafter := hl₁.after_le_stop List.mem_cons_self
  have hstop := hg.stop_le
  have hsize := Lawful.size_lt hg.shows
  refine (freeChunk_ends hg.shows hl₁ (by simp only [mul_blockSize] at *; omega)).bind ?_
    fun _ _ => False.elim
  rintro _ e₂ ⟨h₂, hm₂, ho₂⟩
  have hstop₂ : e₂.occupancy.stop ≤ e'.occupancy.stop := by
    refine Occupancy.stop_le fun b hb => ?_
    rw [ho₂] at hb
    exact Occupancy.lt_stop (Bitmap.mem_eraseRange.1 hb).1
  refine ends_pure.2 ⟨rfl, h₂, hm₂.trans hg.mode, ?_, ?_, ?_, hg.stocks, hg.carries, hg.settled,
    hg.apart⟩
  · intro rest' hrest'
    have hperm := (hrest.symm.trans hrest').cons_inv
    rw [ho₂]
    exact hl₁.drop.perm (hperm.cons _)
  · exact Nat.le_trans (Nat.mul_le_mul_right _ hstop₂) hstop
  · exact Nat.le_trans hstop₂ hg.stop_le_max

theorem relocate_ends (h : Consistent v m E live committed shield) (hc : c ∈ v.records.held)
    (hp : Carries m.content c p) (hmove : CanMove v shield c r) :
    Ends (do
      let moved ← copy c r
      freeChunk c
      return moved) v.engine (fun moved e' =>
        (∃ start, v.engine.occupancy.preview c.len.toNat r = .ok start ∧ moved.first = start ∧
          moved = c.movedTo start) ∧ v.engine.Fresh r moved p ∧
        ∃ m', Relocated v E live committed shield c moved p m' e') (Stops m) := by
  have hlt := room_lt (δ := δ)
  have hroom := hmove.room
  have hn := h.layout.len_pos c hc
  obtain ⟨start, hpreview, -⟩ := Occupancy.preview_spec (o := v.engine.occupancy) (r := r) hn
    (by simp only [mul_blockSize] at *; omega)
  refine (copy_ends h.shows h.layout.blockSize hp.holds hp.fits hn hroom hpreview
    (hmove.back start hpreview)).bind ?_ fun _ _ => id
  rintro _ e₁ ⟨rfl, hfirst, hfresh, hputs⟩
  have hg := h.grow hfresh (fun b hb hcb => hmove.clear start hpreview b hb (by
    rw [← hfirst]
    exact hcb)) hputs
  refine (retire_ends hc hg).mono ?_ fun _ _ => False.elim
  rintro _ e₂ ⟨rfl, hr⟩
  exact ⟨⟨start, hpreview, hfirst, rfl⟩, hfresh, _, hr⟩

namespace Relocated

/-- The records after a data chunk has moved. Its old blocks are under the shield. -/
theorem data (h : Consistent v m E live committed shield)
    (hr : Relocated v E live committed shield c (c.movedTo start) p m' e')
    (hc : c ∈ v.records.data.chunks) (hp : live c.id = some p)
    (hshield : ∀ b, c.Covers b → shield b) :
    Consistent ⟨e', { v.records with
        data := v.records.data.insert (c.movedTo start)
        dirty := true }⟩ m' E live committed shield := by
  have hold := Roster.perm_erase hc
  have hnew : (v.records.data.insert (c.movedTo start)).chunks.Perm
      (c.movedTo start :: (v.records.data.erase c.id).chunks) := v.records.data.insert_perm _
  have hrest := (hold.append_right v.records.root.toList).append_right v.records.removed
  have hheld := (hnew.append_right v.records.root.toList).append_right v.records.removed
  have hids := (hrest.map Chunk.id).trans (hheld.map Chunk.id).symm
  have hback (d : Chunk) (hd : d ∈ (v.records.data.insert (c.movedTo start)).chunks) :
      d = c.movedTo start ∨ d ∈ v.records.data.chunks := by
    refine (List.mem_cons.1 (hnew.mem_iff.1 hd)).imp id fun hd => (Roster.mem_erase.1 hd).1
  refine ⟨hr.shows, (hr.layout _ hrest).perm hheld.symm, hids.nodup_iff.1 h.ids_nodup,
    fun d hd => ?_, fun d hd => ?_, hr.stop_le, ⟨fun d hd => ?_, fun id q hq => ?_⟩, hr.settled,
    fun d hd => ?_, h.root, h.version, nofun⟩
  · obtain ⟨d', hd', heq⟩ := List.mem_map.1 (hids.mem_iff.2 (List.mem_map_of_mem hd))
    rw [← heq]
    exact h.ids_lt d' hd'
  · rcases hback d hd with rfl | hd
    · exact h.plain c hc
    · exact h.plain d hd
  · rcases hback d hd with rfl | hd
    · exact ⟨p, hp, hr.carries⟩
    · exact hr.stocks.carries d hd
  · obtain ⟨d, hd, rfl⟩ := h.stocks.named id q hq
    rcases List.mem_cons.1 (hold.mem_iff.1 hd) with rfl | hd
    · exact ⟨_, hnew.mem_iff.2 List.mem_cons_self, rfl⟩
    · exact ⟨d, hnew.mem_iff.2 (List.mem_cons_of_mem _ hd), rfl⟩
  · obtain ⟨a, ha, hid, hlen, hplace⟩ := h.trails d hd
    rcases List.mem_cons.1 (hrest.mem_iff.1 ha) with rfl | ha
    · refine ⟨a.movedTo start, hheld.mem_iff.2 List.mem_cons_self, hid, hlen, .inr fun b hb => ?_⟩
      rcases hplace with hfirst | hsh
      · refine hshield b ⟨?_, ?_⟩
        · rw [hfirst]
          exact hb.1
        · rw [Chunk.after_eq, hfirst, hlen, ← Chunk.after_eq]
          exact hb.2
      · exact hsh b hb
    · exact ⟨a, hheld.mem_iff.2 (List.mem_cons_of_mem _ ha), hid, hlen, hplace⟩

/-- The edition of the last commit with its root in another place. -/
theorem sound_root (h : Consistent v m E live committed shield)
    (hr : Relocated v E live committed shield c (c.movedTo start) p m' e')
    (hc : v.records.root = some c) : Edition.Sound { E with root := some (c.movedTo start) } := by
  have hE := h.settled.sound
  have hroot : E.root = some c := h.root.symm.trans hc
  have hperm : E.held.Perm (c :: E.chunks) := by
    rw [Edition.held, hroot]
    exact List.perm_append_singleton c E.chunks
  have hperm' : (Edition.held { E with root := some (c.movedTo start) }).Perm
      (c.movedTo start :: E.chunks) := List.perm_append_singleton _ _
  have hids := (hperm.map Chunk.id).trans (hperm'.map Chunk.id).symm
  have hl := hr.layout _ (List.perm_cons_erase (List.mem_append_left _ (List.mem_append_right _ (by
    rw [hc]
    exact List.mem_cons_self))))
  refine ⟨(fun hno => by cases hno), ?_, hE.plain, hE.ascending, hids.nodup_iff.1 hE.ids_nodup, fun d hd => ?_,
    (hperm'.pairwise_iff Chunk.Apart.symm).2 (List.pairwise_cons.2 ⟨fun d hd => ?_, ?_⟩),
    fun d hd => ?_, fun d hd => ?_⟩
  · rintro _ ⟨⟩
    exact congrArg (Chunk.movedTo · start) (hE.root c hroot)
  · obtain ⟨d', hd', heq⟩ := List.mem_map.1 (hids.mem_iff.2 (List.mem_map_of_mem hd))
    rw [← heq]
    exact hE.ids_lt d' hd'
  · exact hr.apart d (Edition.mem_held.2 (.inl hd))
  · exact (List.pairwise_append.1 hE.apart).1
  · rcases List.mem_cons.1 (hperm'.mem_iff.1 hd) with rfl | hd
    · exact hl.header_le _ List.mem_cons_self
    · exact hE.header_le d (Edition.mem_held.2 (.inl hd))
  · rcases List.mem_cons.1 (hperm'.mem_iff.1 hd) with rfl | hd
    · exact hl.len_pos _ List.mem_cons_self
    · exact hE.len_pos d (Edition.mem_held.2 (.inl hd))

theorem backed_root (hr : Relocated v E live committed shield c (c.movedTo start) E.imageBytes m' e') :
    Edition.Backed { E with root := some (c.movedTo start) } m'.content committed := by
  refine ⟨?_, hr.settled.read_content.backed.stocks⟩
  rintro _ ⟨⟩
  exact hr.carries

/-- The records after the root has moved and the superblock names its new place. -/
theorem root {e₂ : Engine δ} (h : Consistent v m E live committed shield)
    (hr : Relocated v E live committed shield c (c.movedTo start) E.imageBytes m' e')
    (hc : v.records.root = some c)
    (k : e'.Keeps (Edition.publishedOn { E with root := some (c.movedTo start) } m') e₂) :
    Consistent ⟨e₂, { v.records with root := some (c.movedTo start) }⟩
      (Edition.publishedOn { E with root := some (c.movedTo start) } m')
      { E with root := some (c.movedTo start) } live committed shield := by
  have hs := sound_root h hr hc
  have hb := backed_root hr
  have hroot : E.root = some c := h.root.symm.trans hc
  have hcontent : (Edition.publishedOn { E with root := some (c.movedTo start) } m').content =
      Change.apply m'.content (.write 0
        (Edition.superblock { E with root := some (c.movedTo start) }).toBytes) := by
    rw [Edition.publishedOn, Medium.content_sync, Medium.content_change, Medium.content_sync]
  have hrest : v.records.held.Perm (c :: (v.records.data.chunks ++ v.records.removed)) := by
    rw [Catalog.held, hc, List.append_assoc]
    exact List.perm_middle
  have hheld : (v.records.data.chunks ++ [c.movedTo start] ++ v.records.removed).Perm
      (c.movedTo start :: (v.records.data.chunks ++ v.records.removed)) := by
    rw [List.append_assoc]
    exact List.perm_middle
  have hids := (hrest.map Chunk.id).trans (hheld.map Chunk.id).symm
  have hl := (hr.layout _ hrest).perm hheld.symm
  have hl₂ : Layout e₂.occupancy _ := k.2.1 ▸ hl
  refine ⟨k.1, hl₂, hids.nodup_iff.1 h.ids_nodup, fun d hd => ?_, h.plain, ?_, ?_,
    Edition.Settled.publish rfl hs hb, fun d hd => ?_, rfl, h.version, fun hd => h.clean hd⟩
  · obtain ⟨d', hd', heq⟩ := List.mem_map.1 (hids.mem_iff.2 (List.mem_map_of_mem hd))
    rw [← heq]
    exact h.ids_lt d' hd'
  · have hle := hr.stop_le
    rw [hcontent, Change.size_apply_write, k.2.1]
    omega
  · rw [hcontent]
    exact hr.stocks.change fun d hd =>
      hl.spares_header (List.mem_append_left _ (List.mem_append_left _ hd)) _
  · rcases Edition.mem_held.1 hd with hd | hd
    · obtain ⟨a, ha, hid, hplace⟩ := h.trails d (Edition.mem_held.2 (.inl hd))
      rcases List.mem_cons.1 (hrest.mem_iff.1 ha) with rfl | ha
      · have hE := h.settled.sound.ids_nodup
        rw [Edition.held, hroot, List.map_append] at hE
        exact absurd hid.symm ((List.nodup_append.1 hE).2.2 d.id (List.mem_map_of_mem hd) a.id
          List.mem_cons_self)
      · exact ⟨a, hheld.mem_iff.2 (List.mem_cons_of_mem _ ha), hid, hplace⟩
    · obtain rfl := Option.some.inj hd
      exact ⟨_, hheld.mem_iff.2 List.mem_cons_self, rfl, rfl, .inl rfl⟩

end Relocated

/-- What the moves of a compaction leave alone. -/
structure Alike (v v' : Store δ) : Prop where
  mode : v'.engine.mode = v.engine.mode
  nextId : v'.records.nextId = v.records.nextId
  version : v'.records.version = v.records.version
  removed : v'.records.removed = v.records.removed
  size : v'.records.data.size = v.records.data.size
  root : v'.records.root.map (fun c => (c.id, c.len)) = v.records.root.map fun c => (c.id, c.len)

omit [Device δ] [Lawful δ] in
theorem Alike.refl (v : Store δ) : Alike v v := ⟨rfl, rfl, rfl, rfl, rfl, rfl⟩

omit [Device δ] [Lawful δ] in
theorem Alike.trans {v' v'' : Store δ} (h : Alike v v') (h' : Alike v' v'') : Alike v v'' :=
  ⟨h'.mode.trans h.mode, h'.nextId.trans h.nextId, h'.version.trans h.version,
    h'.removed.trans h.removed, h'.size.trans h.size, h'.root.trans h.root⟩

/-- A chunk has moved, and the others are where they were. -/
structure Moved (v v' : Store δ) (c moved : Chunk) : Prop extends Alike v v' where
  find? : ∀ id, v'.records.find? id = if c.id = id then some moved else v.records.find? id
  stop_le : v'.engine.occupancy.stop ≤ max v.engine.occupancy.stop moved.after

theorem Consistent.carries_of_mem (h : Consistent v m E live committed shield)
    (hc : c ∈ v.records.chunks) :
    (c ∈ v.records.data.chunks ∧ ∃ p, live c.id = some p ∧ Carries m.content c p) ∨
      v.records.root = some c ∧ Carries m.content c E.imageBytes := by
  rcases Catalog.mem_chunks.1 hc with hc | hc
  · exact .inl ⟨hc, h.stocks.carries c hc⟩
  · exact .inr ⟨hc, h.settled.read_content.backed.root c (h.root.symm.trans hc)⟩

theorem Consistent.exists_carries (h : Consistent v m E live committed shield)
    (hc : c ∈ v.records.chunks) : ∃ p, Carries m.content c p := by
  rcases h.carries_of_mem hc with ⟨-, p, -, hp⟩ | ⟨-, hp⟩
  · exact ⟨p, hp⟩
  · exact ⟨_, hp⟩

/-- A root and a data chunk have different ids. -/
theorem Consistent.root_unlike (h : Consistent v m E live committed shield) {root : Chunk}
    (hr : v.records.root = some root) : ∀ d ∈ v.records.data.chunks, d.id ≠ root.id := by
  have hids := h.ids_nodup
  rw [Catalog.held, hr, List.append_assoc, List.map_append] at hids
  exact fun d hd => (List.nodup_append.1 hids).2.2 d.id (List.mem_map_of_mem hd) root.id
    (List.mem_map_of_mem (List.mem_append_left _ List.mem_cons_self))

/-- The records take note of a data chunk that has moved. -/
theorem register_data_ends (h : Consistent v m E live committed shield)
    (hr : Relocated v E live committed shield c (c.movedTo start) p m' e')
    (hc : c ∈ v.records.data.chunks) (hp : live c.id = some p)
    (hshield : ∀ b, c.Covers b → shield b) :
    Ends (register (c.movedTo start)) (⟨e', v.records⟩ : Store δ) (fun _ v' =>
      Moved v v' c (c.movedTo start) ∧ Consistent v' m' E live committed shield)
      fun _ _ => False := by
  have hroot : v.records.root.any (·.id = (c.movedTo start).id) = false := by
    rw [Option.any_eq_false]
    exact fun root hroot => decide_eq_false fun heq => h.root_unlike hroot c hc heq.symm
  have hfind : v.records.data.find? (c.movedTo start).id = some c :=
    Roster.find?_eq_some.2 ⟨hc, rfl⟩
  unfold register
  rw [ends_bind, ends_get]
  dsimp only
  rw [hroot, if_neg Bool.false_ne_true, hfind, if_pos Option.isSome_some]
  refine ends_modify.2 ⟨⟨⟨hr.mode, rfl, rfl, rfl, Roster.size_insert hc rfl, rfl⟩, fun id => ?_,
    hr.stop_le_max⟩, hr.data h hc hp hshield⟩
  rw [Catalog.find?, Roster.find?_insert]
  change (if c.id = id then _ else _ : Option Chunk).or _ = _
  split
  · rfl
  · rfl

/-- The superblock follows a root that has moved. -/
theorem register_root_ends (h : Consistent v m E live committed shield)
    (hr : Relocated v E live committed shield c (c.movedTo start) E.imageBytes m' e')
    (hc : v.records.root = some c) :
    Ends (register (c.movedTo start)) (⟨e', v.records⟩ : Store δ) (fun _ v' =>
      Moved v v' c (c.movedTo start) ∧
        ∃ m' E', Consistent v' m' E' live committed shield) (CutOff committed live) := by
  have hroot : v.records.root.any (·.id = (c.movedTo start).id) = true := by
    rw [hc]
    exact decide_eq_true rfl
  have hsb : Superblock.naming v.records.version (c.movedTo start) =
      Edition.superblock { E with root := some (c.movedTo start) } := by
    rw [h.version]
    rfl
  unfold register
  rw [ends_bind, ends_get]
  dsimp only
  rw [hroot, if_pos rfl, ends_bind, ends_modify, Volume.onEngine, ends_within, hsb]
  refine (publish_ends ⟨⟩ sync hr.shows hr.settled (Relocated.sound_root h hr hc)
    (Relocated.backed_root hr) h.headerBytes_lt fun e₁ m₁ h₁ =>
      (sync_ends h₁).mono (fun _ _ k => ⟨rfl, k⟩) fun _ _ => id).mono ?_ ?_
  · rintro _ e₂ ⟨-, k₂⟩
    refine ⟨⟨⟨k₂.2.2.trans hr.mode, rfl, rfl, rfl, rfl, by rw [hc]; rfl⟩, fun id => ?_, ?_⟩, _, _,
      hr.root h hc k₂⟩
    · rw [Catalog.find?, Catalog.find?, hc]
      by_cases hid : c.id = id
      · subst hid
        rw [if_pos rfl, Roster.find?_eq_none.2 (h.root_unlike hc)]
        exact if_pos (decide_eq_true rfl)
      · rw [if_neg hid]
        have hnone (d : Chunk) (hd : d.id = c.id) : (some d).filter (·.id = id) = none := by
          rw [Option.filter_some, if_neg fun hdec => hid (hd.symm.trans (of_decide_eq_true hdec))]
        rw [hnone c rfl, hnone (c.movedTo start) rfl]
    · rw [k₂.2.1]
      exact hr.stop_le_max
  · rintro f e₂ ⟨hf, m₂, h₂, hcrash⟩
    exact ⟨hf, _, h₂, fun b hb =>
      .inl ((hcrash b hb).elim (fun hE => ⟨E, hE⟩) fun hE => ⟨_, hE.2⟩)⟩

/-- Whatever the chunk that has moved, the records take note of it. -/
theorem register_ends (h : Consistent v m E live committed shield) (hc : c ∈ v.records.chunks)
    (hshield : c ∈ v.records.data.chunks → ∀ b, c.Covers b → shield b) :
    ∃ p, Carries m.content c p ∧ ∀ {start m' e'},
      Relocated v E live committed shield c (c.movedTo start) p m' e' →
      Ends (register (c.movedTo start)) (⟨e', v.records⟩ : Store δ) (fun _ v' =>
        Moved v v' c (c.movedTo start) ∧
          ∃ m' E', Consistent v' m' E' live committed shield) (CutOff committed live) := by
  rcases h.carries_of_mem hc with ⟨hdata, p, hp, hcarries⟩ | ⟨hroot, hcarries⟩
  · refine ⟨p, hcarries, fun hr => ?_⟩
    refine (register_data_ends h hr hdata hp (hshield hdata)).mono ?_ fun _ _ => False.elim
    exact fun _ v' hv' => ⟨hv'.1, _, _, hv'.2⟩
  · exact ⟨_, hcarries, fun hr => register_root_ends h hr hroot⟩

/-- Where a move has taken a chunk. -/
structure Destination (v : Store δ) (r : Reserved) (c moved : Chunk) : Prop where
  moved_eq : moved = c.movedTo moved.first
  preview : v.engine.occupancy.preview c.len.toNat r = .ok moved.first
  fresh : ∃ p, v.engine.Fresh r moved p

theorem Destination.id_eq (h : Destination v r c moved) : moved.id = c.id := by
  rw [h.moved_eq]
  rfl

theorem Destination.len_eq (h : Destination v r c moved) : moved.len = c.len := by
  rw [h.moved_eq]
  rfl

/-- A chunk that is kept moves to where there is room for it. -/
theorem move_ends (h : Consistent v m E live committed shield)
    (hfind : v.records.find? id = some c) (hmove : CanMove v shield c r)
    (hshield : c ∈ v.records.data.chunks → ∀ b, c.Covers b → shield b) :
    Ends (Volume.move id r) v (fun out v' => ∃ moved, out = some moved ∧
      Destination v r c moved ∧ Moved v v' c moved ∧
      ∃ m' E', Consistent v' m' E' live committed shield) (CutOff committed live) := by
  obtain ⟨hmem, -⟩ := (Catalog.find?_eq_some h.ids_nodup).1 hfind
  have hheld : c ∈ v.records.held := v.records.chunks_subperm.subset hmem
  have hchunk : v.chunk? id = some c := hfind
  unfold Volume.move
  rw [ends_bind, ends_get, hchunk]
  dsimp only
  rw [ends_bind, Volume.onEngine, ends_within]
  obtain ⟨p, hcarries, hregister⟩ := register_ends h hmem hshield
  refine (relocate_ends h hheld hcarries hmove).mono ?_ ?_
  · rintro _ e₁ ⟨⟨start, hpreview, hfirst, rfl⟩, hfresh, m₁, hr⟩
    refine (hregister hr).bind ?_ fun _ _ hf => hf
    rintro _ v' ⟨hmoved, hv'⟩
    refine ends_pure.2 ⟨_, rfl, ⟨?_, ?_, p, hfresh⟩, hmoved, hv'⟩
    · rw [hfirst]
    · rw [hfirst]
      exact hpreview
  · rintro f e₁ ⟨hf, h₁⟩
    exact ⟨hf, _, h₁, (h.settled.safe _ _)⟩

omit [Lawful δ] in
/-- There is nothing to move under an id that is not kept. -/
theorem move_ends_none (hfind : v.records.find? id = none) :
    Ends (Volume.move id r) v (fun out v' => out = none ∧ v = v') fun _ _ => False := by
  have hchunk : v.chunk? id = none := hfind
  unfold Volume.move
  rw [ends_bind, ends_get, hchunk]
  exact ends_pure.2 ⟨rfl, rfl⟩

end Store

end BlockStore
