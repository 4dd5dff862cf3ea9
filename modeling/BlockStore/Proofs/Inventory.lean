import BlockStore.Proofs.Endurance

namespace BlockStore

/-- What the keeper of a volume has on its blocks. -/
structure Inventory where
  data : List Chunk
  root : Option Chunk
  /-- Blocks that are taken for no chunk of the records. -/
  loose : List Chunk
  /-- The ids that chunks have been given so far. -/
  past : UInt32 → Prop

/-- A chunk has moved if the record is its own. -/
def Chunk.follow (moved c : Chunk) : Chunk := if c.id = moved.id then moved else c

namespace Chunk

variable {cs rest : List Chunk} {c d moved : Chunk}

theorem mem_map_follow (h : d ∈ cs.map moved.follow) :
    d = moved ∨ d ∈ cs ∧ d.id ≠ moved.id := by
  obtain ⟨c, hc, rfl⟩ := List.mem_map.1 h
  unfold follow
  split
  · exact .inl rfl
  · next hne => exact .inr ⟨hc, hne⟩

theorem id_follow (moved c : Chunk) : (moved.follow c).id = c.id := by
  unfold follow
  split
  · next h => exact h.symm
  · rfl

/-- No chunk follows one of another id. -/
theorem map_follow_of_absent (h : ∀ d ∈ cs, d.id ≠ moved.id) : cs.map moved.follow = cs :=
  (List.map_congr_left fun d hd => if_neg (h d hd)).trans (List.map_id _)

/-- The moved chunk takes the place of the old one among the others. -/
theorem map_follow_perm (hids : (cs.map Chunk.id).Nodup) (hp : cs.Perm (c :: rest))
    (hid : moved.id = c.id) : (cs.map moved.follow).Perm (moved :: rest) := by
  have hnodup := (hp.map Chunk.id).nodup_iff.1 hids
  refine (hp.map _).trans ?_
  rw [List.map_cons, follow, if_pos hid.symm, map_follow_of_absent fun d hd heq =>
    (List.nodup_cons.1 hnodup).1 (List.mem_map.2 ⟨d, hd, heq.trans hid⟩)]

end Chunk

namespace Inventory

/-- The chunks of the records. -/
def chunks (D : Inventory) : List Chunk := D.data ++ D.root.toList

/-- All that the blocks are in use for. -/
def held (D : Inventory) : List Chunk := D.chunks ++ D.loose

def relocate (D : Inventory) (moved : Chunk) : Inventory :=
  { D with data := D.data.map moved.follow, root := D.root.map moved.follow }

/-- With a new root. The blocks of the old one are still taken. -/
def crown (D : Inventory) (root : Chunk) : Inventory where
  data := D.data
  root := some root
  loose := D.root.toList ++ D.loose
  past id := id = root.id ∨ D.past id

variable {D : Inventory} {c d moved : Chunk} {rest : List Chunk}

theorem mem_chunks : c ∈ D.chunks ↔ c ∈ D.data ∨ D.root = some c := by
  rw [chunks, List.mem_append, Option.mem_toList]

theorem mem_held_of_chunks (h : c ∈ D.chunks) : c ∈ D.held := List.mem_append_left _ h

theorem chunks_relocate (D : Inventory) (moved : Chunk) :
    (D.relocate moved).chunks = D.chunks.map moved.follow := by
  rw [chunks, chunks, List.map_append]
  congr 1
  cases h : D.root with
  | none => simp [relocate, h]
  | some root => simp [relocate, h]

theorem chunks_relocate_perm (hids : (D.chunks.map Chunk.id).Nodup)
    (hp : D.chunks.Perm (c :: rest)) (hid : moved.id = c.id) :
    (D.relocate moved).chunks.Perm (moved :: rest) := by
  rw [chunks_relocate]
  exact Chunk.map_follow_perm hids hp hid

theorem exists_perm (h : c ∈ D.chunks) : ∃ rest, D.chunks.Perm (c :: rest) :=
  ⟨_, List.perm_cons_erase h⟩

end Inventory

/-- An engine, the bytes of its device and what a keeper has there. -/
structure Site (δ : Type) where
  engine : Engine δ
  bytes : ByteArray
  inventory : Inventory

namespace Site

open Bytes Device

variable {δ : Type} [Device δ] [Fallible δ]

/-- The records fit the map of the blocks, and the blocks the records. -/
structure Sound (s : Site δ) : Prop where
  has : s.engine.Has s.bytes
  lodged : Lodged s.engine.occupancy s.inventory.held
  sealed : ∀ c ∈ s.inventory.chunks, ∃ p, Seals s.bytes c p
  ids_nodup : (s.inventory.chunks.map Chunk.id).Nodup
  past : ∀ c ∈ s.inventory.chunks, s.inventory.past c.id

/-- What a keeper may do on its own: anything to the bytes off the chunks of its records; take free
blocks, and give back loose ones; make a chunk or the root of loose blocks that pass for it, under a
new id; let go of a chunk. -/
inductive Step : Site δ → Site δ → Prop
  | work {e e' : Engine δ} {b b' : ByteArray} {D : Inventory} : e'.Has b' →
    (∀ c ∈ D.chunks, c.Kept b b') → e.occupancy.Releases (fun _ => False) e'.occupancy →
    Step ⟨e, b, D⟩ ⟨e', b', D⟩
  | take {e e' : Engine δ} {b : ByteArray} {D : Inventory} {c : Chunk} : e'.Has b →
    0 < c.len.toNat → e.occupancy.Vacant c.first c.len.toNat →
    e.occupancy.Releases (fun _ => False) e'.occupancy →
    e'.occupancy.Filled c.first c.len.toNat →
    Step ⟨e, b, D⟩ ⟨e', b, { D with loose := c :: D.loose }⟩
  | free {e e' : Engine δ} {b : ByteArray} {D : Inventory} {c : Chunk} {rest : List Chunk} :
    D.loose.Perm (c :: rest) → e'.Has b → e.occupancy.Releases c.Covers e'.occupancy →
    Step ⟨e, b, D⟩ ⟨e', b, { D with loose := rest }⟩
  | adopt {e : Engine δ} {b p : ByteArray} {D : Inventory} {c : Chunk} {rest : List Chunk} :
    D.loose.Perm (c :: rest) → ¬D.past c.id → Seals b c p →
    Step ⟨e, b, D⟩ ⟨e, b, { D with
      data := c :: D.data
      loose := rest
      past := fun id => id = c.id ∨ D.past id }⟩
  | succeed {e : Engine δ} {b p : ByteArray} {D : Inventory} {c : Chunk} {rest : List Chunk} :
    D.loose.Perm (c :: rest) → ¬D.past c.id → Seals b c p →
    Step ⟨e, b, D⟩ ⟨e, b, { D with
      root := some c
      loose := D.root.toList ++ rest
      past := fun id => id = c.id ∨ D.past id }⟩
  | drop {e : Engine δ} {b : ByteArray} {D : Inventory} {c : Chunk} {rest : List Chunk} :
    D.data.Perm (c :: rest) →
    Step ⟨e, b, D⟩ ⟨e, b, { D with data := rest, loose := c :: D.loose }⟩

/-- The chunks of `t` that `s` knows are those of `s`, with the same payloads, and where `hidden`
says so also in the same place and untouched. -/
structure Descends (hidden : UInt32 → Prop) (s t : Site δ) : Prop where
  past : ∀ id, s.inventory.past id → t.inventory.past id
  kept : ∀ d ∈ t.inventory.chunks, s.inventory.past d.id → ∃ c ∈ s.inventory.chunks,
    d = { c with block := d.block, next := d.next } ∧
    (∀ p, Seals s.bytes c p → Seals t.bytes d p) ∧
    (hidden d.id → d = c ∧ c.Kept s.bytes t.bytes)

variable {s t u : Site δ} {hidden : UInt32 → Prop}

omit [Device δ] [Fallible δ] in
theorem Descends.of_kept (hpast : ∀ id, s.inventory.past id → t.inventory.past id)
    (hold : ∀ d ∈ t.inventory.chunks, s.inventory.past d.id → d ∈ s.inventory.chunks)
    (hkept : ∀ c ∈ s.inventory.chunks, c.Kept s.bytes t.bytes) : Descends hidden s t :=
  ⟨hpast, fun d hd hid => ⟨d, hold d hd hid, rfl, fun _ hp => hp.kept (hkept d (hold d hd hid)),
    fun _ => ⟨rfl, hkept d (hold d hd hid)⟩⟩⟩

omit [Device δ] [Fallible δ] in
theorem Descends.refl (s : Site δ) : Descends hidden s s :=
  .of_kept (fun _ h => h) (fun _ h _ => h) fun _ _ _ _ h => h

omit [Device δ] [Fallible δ] in
theorem Descends.trans (h : Descends hidden s t) (h' : Descends hidden t u) :
    Descends hidden s u := by
  refine ⟨fun id hid => h'.past id (h.past id hid), fun d hd hid => ?_⟩
  obtain ⟨c, hc, hdc, hseals, hsame⟩ := h'.kept d hd (h.past _ hid)
  have hcid : d.id = c.id := by rw [hdc]
  obtain ⟨a, ha, hca, hseals', hsame'⟩ := h.kept c hc (hcid ▸ hid)
  refine ⟨a, ha, ?_, fun p hp => hseals p (hseals' p hp), fun hh => ?_⟩
  · rw [hdc, hca]
  · obtain ⟨rfl, hk⟩ := hsame hh
    obtain ⟨rfl, hk'⟩ := hsame' hh
    exact ⟨rfl, hk'.trans hk⟩

namespace Step

theorem sound (hs : s.Sound) (h : Step s t) : t.Sound := by
  obtain ⟨hhas, hlodged, hsealed, hids, hpast⟩ := hs
  cases h with
  | work hhas' hkept hreleases =>
    exact ⟨hhas', hlodged.keeps hreleases, fun c hc => (hsealed c hc).imp fun _ hp =>
      hp.kept (hkept c hc), hids, hpast⟩
  | take hhas' hn hvacant hreleases hfilled =>
    exact ⟨hhas', (hlodged.add hn hvacant hreleases hfilled).perm List.perm_middle.symm, hsealed,
      hids, hpast⟩
  | free hperm hhas' hreleases =>
    have hl := hlodged.perm ((hperm.append_left _).trans List.perm_middle)
    exact ⟨hhas', hl.drop hreleases, hsealed, hids, hpast⟩
  | @adopt e b p D c rest hperm hnew hp =>
    have hheld : D.held.Perm (c :: D.data ++ D.root.toList ++ rest) := by
      rw [Inventory.held, Inventory.chunks]
      exact (hperm.append_left _).trans List.perm_middle
    refine ⟨hhas, hlodged.perm hheld, ?_, ?_, ?_⟩
    · exact List.forall_mem_cons.2 ⟨⟨p, hp⟩, hsealed⟩
    · exact List.nodup_cons.2 ⟨fun hm => hnew (by
        obtain ⟨d, hd, heq⟩ := List.mem_map.1 hm
        exact heq ▸ hpast d hd), hids⟩
    · exact List.forall_mem_cons.2 ⟨.inl rfl, fun d hd => .inr (hpast d hd)⟩
  | @succeed e b p D c rest hperm hnew hp =>
    have hheld : D.held.Perm (D.data ++ [c] ++ (D.root.toList ++ rest)) := by
      rw [Inventory.held, Inventory.chunks, List.append_assoc, List.append_assoc]
      refine List.Perm.append_left _ ?_
      rw [List.singleton_append]
      exact (hperm.append_left _).trans List.perm_middle
    have hold (d : Chunk) (hd : d ∈ D.data) : d ∈ D.chunks := List.mem_append_left _ hd
    have hcases (d : Chunk) (hd : d ∈ D.data ++ [c]) : d ∈ D.data ∨ d = c :=
      (List.mem_append.1 hd).imp id List.mem_singleton.1
    refine ⟨hhas, hlodged.perm hheld, fun d hd => ?_, ?_, fun d hd => ?_⟩
    · rcases hcases d hd with hd | rfl
      · exact hsealed d (hold d hd)
      · exact ⟨p, hp⟩
    · change ((D.data ++ [c]).map Chunk.id).Nodup
      rw [List.map_append]
      refine List.nodup_append.2 ⟨?_, List.nodup_singleton _, fun a ha b hb heq => ?_⟩
      · exact hids.sublist ((List.sublist_append_left ..).map _)
      · obtain ⟨d, hd, rfl⟩ := List.mem_map.1 ha
        obtain rfl := List.mem_singleton.1 hb
        exact hnew (heq ▸ hpast d (hold d hd))
    · rcases hcases d hd with hd | rfl
      · exact .inr (hpast d (hold d hd))
      · exact .inl rfl
  | @drop e b D c rest hperm =>
    have hheld : D.held.Perm (rest ++ D.root.toList ++ c :: D.loose) := by
      rw [Inventory.held, Inventory.chunks]
      refine ((hperm.append_right _).append_right _).trans ?_
      exact List.perm_middle.symm
    have hsub : (rest ++ D.root.toList).Subperm D.chunks :=
      ((List.sublist_cons_self c _).subperm).trans (hperm.append_right _).symm.subperm
    refine ⟨hhas, hlodged.perm hheld, fun d hd => hsealed d (hsub.subset hd), ?_,
      fun d hd => hpast d (hsub.subset hd)⟩
    obtain ⟨l, hl, hls⟩ := hsub
    exact (hl.map Chunk.id).nodup_iff.1 (hids.sublist (hls.map _))

theorem descends (hs : s.Sound) (h : Step s t) : Descends hidden s t := by
  cases h with
  | work hhas' hkept hreleases => exact .of_kept (fun _ h => h) (fun _ h _ => h) hkept
  | take => exact .of_kept (fun _ h => h) (fun _ h _ => h) fun _ _ _ _ h => h
  | free => exact .of_kept (fun _ h => h) (fun _ h _ => h) fun _ _ _ _ h => h
  | adopt hperm hnew hp =>
    refine .of_kept (fun _ h => .inr h) (fun d hd hid => ?_) fun _ _ _ _ h => h
    rcases List.mem_cons.1 hd with rfl | hd
    · exact absurd hid hnew
    · exact hd
  | succeed hperm hnew hp =>
    refine .of_kept (fun _ h => .inr h) (fun d hd hid => ?_) fun _ _ _ _ h => h
    rcases List.mem_append.1 hd with hd | hd
    · exact List.mem_append_left _ hd
    · obtain rfl := List.mem_singleton.1 hd
      exact absurd hid hnew
  | drop hperm =>
    refine .of_kept (fun _ h => h) (fun d hd _ => ?_) fun _ _ _ _ h => h
    rcases List.mem_append.1 hd with hd | hd
    · exact List.mem_append_left _ (hperm.mem_iff.2 (List.mem_cons_of_mem _ hd))
    · exact List.mem_append_right _ hd

end Step

/-- Any number of steps. -/
abbrev Steps : Site δ → Site δ → Prop := Relation.ReflTransGen Step

theorem Steps.sound (hs : s.Sound) (h : Steps s t) : t.Sound := by
  induction h with
  | refl => exact hs
  | tail _ hstep ih => exact hstep.sound ih

theorem Steps.descends (hs : s.Sound) (h : Steps s t) : Descends hidden s t := by
  induction h with
  | refl => exact .refl s
  | tail hsteps hstep ih => exact ih.trans (hstep.descends (Steps.sound hs hsteps))

theorem Steps.seals {c : Chunk} {p : ByteArray} (hs : s.Sound) (h : Steps s t)
    (hc : c ∈ s.inventory.chunks) (hct : c ∈ t.inventory.chunks) (hp : Seals s.bytes c p) :
    Seals t.bytes c p := by
  have hdescends : Descends (fun _ => False) s t := h.descends hs
  obtain ⟨a, ha, hca, hseals, -⟩ := hdescends.kept c hct (hs.past c hc)
  have hid : c.id = a.id := by rw [hca]
  obtain rfl : a = c := List.inj_on_of_nodup_map hs.ids_nodup ha hc hid.symm
  exact hseals p hp

/-- A chunk of the records has moved to blocks that were free. -/
structure Moves (s : Site δ) (c : Chunk) (start : Nat) (t : Site δ) : Prop where
  mem : c ∈ s.inventory.chunks
  vacant : s.engine.occupancy.Vacant start c.len.toNat
  lt : start < UInt64.size
  relocates : ∃ p, Seals s.bytes c p ∧ s.engine.Relocates s.bytes c p start t.bytes t.engine
  inventory : t.inventory = s.inventory.relocate (c.movedTo start)

/-- A device at rest, or one whose bytes change off the chunks of the records. -/
theorem Step.of_rests {s : Site δ} {e : Engine δ} {b : ByteArray} (h : s.engine.Rests b e)
    (hkept : ∀ c ∈ s.inventory.chunks, c.Kept s.bytes b) : Step s ⟨e, b, s.inventory⟩ :=
  .work h.has hkept (by rw [h.occupancy]; exact .refl _ _)

theorem Step.idle {s : Site δ} {e : Engine δ} (h : s.engine.Rests s.bytes e) :
    Step s ⟨e, s.bytes, s.inventory⟩ := .of_rests h fun _ _ _ _ hb => hb

theorem Step.of_spared {s : Site δ} {e : Engine δ} {f : Failure}
    (h : s.engine.Spared s.bytes f e) : Step s ⟨e, s.bytes, s.inventory⟩ :=
  .work h.2.1 (fun _ _ _ _ hb => hb) h.2.2

omit [Device δ] [Fallible δ] in
theorem mem_relocate {D : Inventory} {c moved : Chunk} (hc : c ∈ (D.relocate moved).chunks) :
    c = moved ∨ c ∈ D.chunks := by
  rw [Inventory.chunks_relocate] at hc
  exact (Chunk.mem_map_follow hc).imp_right And.left

omit [Device δ] [Fallible δ] in
theorem moved_mem_chunks {D : Inventory} {c : Chunk} (hc : c ∈ D.chunks) (start : Nat) :
    c.movedTo start ∈ (D.relocate (c.movedTo start)).chunks := by
  rw [Inventory.chunks_relocate]
  exact List.mem_map.2 ⟨c, hc, if_pos rfl⟩

namespace Moves

variable {c : Chunk} {start : Nat}

theorem len_pos (h : s.Moves c start t) (hs : s.Sound) : 0 < c.len.toNat :=
  hs.lodged.len_pos c (Inventory.mem_held_of_chunks h.mem)

theorem header_le (h : s.Moves c start t) (hs : s.Sound) : headerBlocks ≤ start :=
  hs.lodged.header_le_of_vacant (h.len_pos hs) h.vacant

theorem superblock (h : s.Moves c start t) (hs : s.Sound) : Superblock.Kept s.bytes t.bytes := by
  obtain ⟨p, -, hr⟩ := h.relocates
  obtain ⟨data, -, hb⟩ := hr.change
  rw [hb]
  exact Superblock.kept_of_write (h.header_le hs)

/-- A copy on blocks that were free leaves the chunks of the records alone. -/
theorem kept (h : s.Moves c start t) (hs : s.Sound) :
    ∀ d ∈ s.inventory.chunks, d.Kept s.bytes t.bytes := by
  intro d hd
  have hfirst := c.first_movedTo h.lt
  have hapart : (c.movedTo start).Apart d := by
    have := hs.lodged.apart_of_vacant (Inventory.mem_held_of_chunks hd) (h.len_pos hs) h.vacant
    rw [Chunk.Apart, Chunk.after_eq, hfirst]
    exact this.symm
  obtain ⟨p, -, hr⟩ := h.relocates
  obtain ⟨data, hdata, hb⟩ := hr.change
  rw [hb, ← hfirst]
  exact Chunk.kept_of_spares (hapart.spares_write hdata)

theorem sound (h : s.Moves c start t) (hs : s.Sound) : t.Sound := by
  obtain ⟨rest, hrest⟩ := Inventory.exists_perm h.mem
  have hperm := Inventory.chunks_relocate_perm hs.ids_nodup hrest
    (rfl : (c.movedTo start).id = c.id)
  have hl := hs.lodged.perm (hrest.append_right s.inventory.loose)
  have hn := h.len_pos hs
  have hfirst := c.first_movedTo h.lt
  have hkept := h.kept hs
  obtain ⟨p, -, hr⟩ := h.relocates
  obtain ⟨wasteful, hocc⟩ := hr.occupancy
  have hadd : Lodged { s.engine.occupancy with
      used := s.engine.occupancy.used.insertRange start (start + c.len.toNat), wasteful }
      (c.movedTo start :: c :: (rest ++ s.inventory.loose)) := by
    refine hl.add hn (hfirst.symm ▸ h.vacant) .insert fun b h1 h2 => ?_
    rw [hfirst] at h1 h2
    exact Bitmap.mem_insertRange.2 (.inr ⟨h1, h2⟩)
  have hdrop : Lodged t.engine.occupancy (c.movedTo start :: (rest ++ s.inventory.loose)) := by
    refine (hadd.perm (.swap ..)).drop ?_
    rw [hocc]
    exact .erase
  have hids := (hrest.map Chunk.id).trans (hperm.map Chunk.id).symm
  obtain ⟨e', b', D'⟩ := t
  obtain rfl : D' = _ := h.inventory
  refine ⟨hr.has, hdrop.perm (hperm.append_right _).symm, fun d hd => ?_,
    hids.nodup_iff.1 hs.ids_nodup, fun d hd => ?_⟩
  · rcases mem_relocate hd with rfl | hd
    · exact ⟨p, hr.sealed⟩
    · exact (hs.sealed d hd).imp fun _ hp => hp.kept (hkept d hd)
  · rcases mem_relocate hd with rfl | hd
    · exact hs.past c h.mem
    · exact hs.past d hd

theorem descends (h : s.Moves c start t) (hs : s.Sound) (hshown : ¬hidden c.id) :
    Descends hidden s t := by
  have hkept := h.kept hs
  obtain ⟨p, hp, hr⟩ := h.relocates
  obtain ⟨e', b', D'⟩ := t
  obtain rfl : D' = _ := h.inventory
  refine ⟨fun _ hid => hid, fun d hd hid => ?_⟩
  rcases mem_relocate hd with rfl | hd
  · exact ⟨c, h.mem, rfl, fun q hq => hp.unique hq ▸ hr.sealed, fun hh => absurd hh hshown⟩
  · exact ⟨d, hd, rfl, fun _ hq => hq.kept (hkept d hd), fun _ => ⟨rfl, hkept d hd⟩⟩

end Moves

end Site

end BlockStore
