import BlockStore.Proofs.Commit
import BlockStore.Proofs.Standing
import BlockStore.Proofs.Tolerance

namespace BlockStore

open BlockStore.Action Bytes Device Engine Keeper

namespace Roster

variable {r : Roster} {c moved : Chunk}

theorem insert_perm_follow (hc : c ∈ r.chunks) (hid : moved.id = c.id) :
    (r.insert moved).chunks.Perm (r.chunks.map moved.follow) := by
  have hnew := r.insert_perm moved
  rw [hid] at hnew
  have hrest : ((r.erase c.id).chunks).map moved.follow = (r.erase c.id).chunks :=
    Chunk.map_follow_of_absent fun d hd => hid ▸ (mem_erase.1 hd).2
  have hmap : (c :: (r.erase c.id).chunks).map moved.follow = moved :: (r.erase c.id).chunks := by
    rw [List.map_cons, hrest, Chunk.follow, if_pos hid.symm]
  rw [← hmap] at hnew
  exact hnew.trans ((perm_erase hc).symm.map _)

end Roster

namespace Catalog

variable {k : Catalog} {c moved : Chunk} {n : Nat} {b b' : ByteArray} {D : Inventory}
  {ids : UInt32 → Prop}

/-- The inventory that the records stand for: data chunks by `ids`, the root, and among the loose
blocks those of removed chunks. The numbers leave room for `n` more commits. -/
structure Lists (ids : UInt32 → Prop) (n : Nat) (k : Catalog) (D : Inventory) : Prop where
  ids : ∀ id, ids id ↔ ∃ c ∈ k.data.chunks, c.id = id
  data : k.data.chunks.Perm D.data
  root : k.root = D.root
  removed : k.removed.Subperm D.loose
  ids_nodup : (k.chunks.map Chunk.id).Nodup
  past : ∀ id, D.past id → id < k.nextId
  nextId : k.nextId.toNat + n < UInt32.size
  version : k.version.toNat + n < UInt64.size
  image : Image.headSize + Image.entrySize * k.data.chunks.length < UInt32.size
  plain : ∀ c ∈ k.data.chunks, c.priority = 0

/-- The file has the last commit of the records, and its chunks are still there. -/
def Stored (k : Catalog) (b : ByteArray) (D : Inventory) : Prop :=
  ∃ E : Edition, E.Stands b ∧ E.root = k.root ∧ E.version = k.version ∧ E.Trails D

/-- The file has some commit whose chunks are still there. -/
def Sheltered (b : ByteArray) (D : Inventory) : Prop := ∃ E : Edition, E.Stands b ∧ E.Trails D

/-- How a store keeps its records during a compaction. -/
def conduct (δ : Type) [Device δ] [Fallible δ] (ids : UInt32 → Prop) : Conduct Catalog where
  View n k b D := Lists ids n k D ∧ Stored k b D
  Remains k b D := Lists ids 0 k D ∧ Sheltered b D
  hidden _ := False
  growth := Chunk.maxBlocks
  fails := Fallible.refusal δ
  stale _ := False

namespace Lists

theorem mono {m : Nat} (h : Lists ids n k D) (hmn : m ≤ n) : Lists ids m k D := by
  have hid := h.nextId
  have hversion := h.version
  exact ⟨h.ids, h.data, h.root, h.removed, h.ids_nodup, h.past, by omega, by omega, h.image, h.plain⟩

theorem chunks_perm (h : Lists ids n k D) : k.chunks.Perm D.chunks := by
  rw [chunks, Inventory.chunks, h.root]
  exact h.data.append_right _

theorem find?_iff (h : Lists ids n k D) {id : UInt32} :
    k.find? id = some c ↔ c ∈ D.chunks ∧ c.id = id := by
  rw [Catalog.find?_eq_some_iff h.ids_nodup, h.chunks_perm.mem_iff]

/-- A data chunk has moved. -/
theorem insert (h : Lists ids n k D) (hc : c ∈ k.data.chunks) (hid : moved.id = c.id)
    (hpriority : moved.priority = c.priority) (hroot : ∀ d, k.root = some d → d.id ≠ moved.id)
    (dirty : Bool) :
    Lists ids n { k with data := k.data.insert moved, dirty } (D.relocate moved) := by
  have hnew := Roster.insert_perm_follow hc hid
  have hids : ((k.data.insert moved).chunks.map Chunk.id).Perm (k.data.chunks.map Chunk.id) := by
    have hsame : Chunk.id ∘ moved.follow = Chunk.id := funext moved.id_follow
    simpa [hsame] using hnew.map Chunk.id
  refine ⟨fun id => ?_, ?_, ?_, h.removed, ?_, h.past, h.nextId, h.version, ?_, fun d hd => ?_⟩
  · rw [h.ids, ← List.mem_map, ← List.mem_map, hids.mem_iff]
  · exact hnew.trans (h.data.map _)
  · change k.root = D.root.map moved.follow
    rw [← h.root]
    cases hk : k.root with
    | none => rfl
    | some d => exact congrArg some (if_neg (hroot d hk)).symm
  · have h0 := h.ids_nodup
    rw [chunks, List.map_append] at h0 ⊢
    exact (hids.append_right _).nodup_iff.2 h0
  · rw [← Roster.size, Roster.size_insert hc hid]
    exact h.image
  · rcases List.mem_cons.1 ((k.data.insert_perm moved).mem_iff.1 hd) with rfl | hd
    · rw [hpriority]
      exact h.plain c hc
    · exact h.plain d (Roster.mem_erase.1 hd).1

/-- The root has moved. -/
theorem setRoot (h : Lists ids n k D) (hc : k.root = some c) (hid : moved.id = c.id) :
    Lists ids n { k with root := some moved } (D.relocate moved) := by
  have hids := h.ids_nodup
  rw [chunks, hc, List.map_append] at hids
  have hother (d : Chunk) (hd : d ∈ D.data) : d.id ≠ moved.id := by
    rw [hid]
    exact (List.nodup_append.1 hids).2.2 d.id (List.mem_map_of_mem (h.data.mem_iff.2 hd)) c.id
      List.mem_cons_self
  refine ⟨h.ids, ?_, ?_, h.removed, ?_, h.past, h.nextId, h.version, h.image, h.plain⟩
  · change k.data.chunks.Perm (D.data.map moved.follow)
    rw [Chunk.map_follow_of_absent hother]
    exact h.data
  · change some moved = D.root.map moved.follow
    rw [← h.root, hc]
    exact congrArg some (if_pos hid.symm).symm
  · rw [chunks, List.map_append]
    change (_ ++ [moved.id]).Nodup
    rw [hid]
    exact hids

/-- The image of the records has a root of its own, and the removed chunks are forgotten. -/
theorem commit {root : Chunk} {past : UInt32 → Prop} {loose : List Chunk} (h : Lists ids (n + 1) k D)
    (hold : ∀ c ∈ D.chunks, D.past c.id) (hid : root.id = k.nextId)
    (hpast : ∀ id, past id → id = root.id ∨ D.past id) :
    Lists ids n { k with
      root := some root
      removed := []
      nextId := k.nextId + 1
      version := k.version + 1
      dirty := false } { D with root := some root, loose, past } := by
  have hnextId := h.nextId
  have hversion := h.version
  have hone : (1 : UInt32).toNat = 1 := rfl
  have hone' : (1 : UInt64).toNat = 1 := rfl
  refine ⟨h.ids, h.data, rfl, List.nil_subperm, ?_, fun id hm => ?_, ?_, ?_, h.image, h.plain⟩
  · have hids := h.ids_nodup
    rw [chunks, List.map_append] at hids ⊢
    refine List.nodup_append.2 ⟨(List.nodup_append.1 hids).1, List.nodup_singleton _, ?_⟩
    rintro _ ha b hb rfl
    obtain rfl := List.mem_singleton.1 hb
    obtain ⟨d, hd, heq⟩ := List.mem_map.1 ha
    have hlt := h.past d.id (hold d (List.mem_append_left _ (h.data.mem_iff.1 hd)))
    rw [heq, hid] at hlt
    exact UInt32.lt_irrefl _ hlt
  · rcases hpast id hm with rfl | hm
    · rw [hid]
      exact Store.self_lt_succ_id (by omega)
    · exact Store.lt_succ_id (h.past id hm) (by omega)
  · rw [UInt32.toNat_add, hone]
    simp only [UInt32.size] at *
    omega
  · rw [UInt64.toNat_add, hone']
    simp only [UInt64.size] at *
    omega

/-- A commit that fails has taken an id, and perhaps blocks. -/
theorem skipped {loose : List Chunk} (h : Lists ids (n + 1) k D) (hsub : D.loose.Sublist loose) :
    Lists ids 0 { k with nextId := k.nextId + 1 } { D with loose } := by
  have hnextId := h.nextId
  exact ⟨h.ids, h.data, h.root, h.removed.trans hsub.subperm, h.ids_nodup,
    fun id hid => Store.lt_succ_id (h.past id hid) (by omega), UInt32.toNat_lt _, UInt64.toNat_lt _,
    h.image, h.plain⟩

end Lists

theorem Sheltered.loosen {loose : List Chunk} (h : Sheltered b D) (hsub : D.loose ⊆ loose) :
    Sheltered b { D with loose } := by
  obtain ⟨E, hE, htrails⟩ := h
  exact ⟨E, hE, htrails.loosen hsub⟩

theorem Stored.sheltered (h : Stored k b D) : Sheltered b D := by
  obtain ⟨E, hE, -, -, htrails⟩ := h
  exact ⟨E, hE, htrails⟩

theorem Stored.kept (h : Stored k b D) (hroot : k.root = D.root)
    (hkept : ∀ c ∈ D.chunks, c.Kept b b') (hsuper : Superblock.Kept b b') : Stored k b' D := by
  obtain ⟨E, hE, hr, hversion, htrails⟩ := h
  refine ⟨E, hE.kept (fun root hroot' => hkept root ?_) hsuper, hr, hversion, htrails⟩
  exact Inventory.mem_chunks.2 (.inr (hroot ▸ hr ▸ hroot'))

/-- The last commit is still on the file when a chunk has been copied to blocks that were free. -/
theorem Stored.moves {δ : Type} [Device δ] [Fallible δ] {s t : Site δ} {start : Nat}
    (h : Stored k s.bytes s.inventory) (hroot : k.root = s.inventory.root) (hs : s.Sound)
    (hm : s.Moves c start t) : Stored k t.bytes t.inventory := by
  obtain ⟨E, hE, hr, hversion, htrails⟩ := h
  refine ⟨E, hE.kept (fun root hroot' => ?_) (hm.superblock hs), hr, hversion, ?_⟩
  · exact hm.kept hs root (Inventory.mem_chunks.2 (.inr (hroot ▸ hr ▸ hroot')))
  · rw [hm.inventory]
    exact htrails.relocate hs.ids_nodup hm.mem rfl rfl

/-- The last commit is still on the file when blocks have been taken and written for a new root. -/
theorem Stored.sheltered_of_steps {δ : Type} [Device δ] [Fallible δ] {e e' : Engine δ}
    {root : Chunk} (h : Stored k b D) (hroot : k.root = D.root) (hs : Site.Sound ⟨e, b, D⟩)
    (hsuper : Superblock.Kept b b')
    (hsteps : Site.Steps ⟨e, b, D⟩ ⟨e', b', { D with loose := root :: D.loose }⟩) :
    Sheltered b' { D with loose := root :: D.loose } := by
  obtain ⟨E, hE, hr, -, htrails⟩ := h
  refine ⟨E, ?_, htrails.loosen (List.subset_cons_self _ _)⟩
  refine ⟨hE.blank, hE.plain, hE.ascending, hE.size_lt, hsuper _ hE.names, fun old hold => ?_⟩
  have hmem : old ∈ D.chunks := Inventory.mem_chunks.2 (.inr (hroot ▸ hr ▸ hold))
  exact hsteps.seals hs hmem hmem (hE.root old hold)

/-- The last commit has its root in the new place once the superblock says so. -/
theorem Stored.rename {p : ByteArray} (h : Stored k b D) (hroot : k.root = some c)
    (hp : Seals b c p) (hq : Seals b moved p) (hfirst : headerBlocks ≤ moved.first)
    (hmoved : moved ∈ D.chunks) : Stored { k with root := some moved }
      (Change.apply b (.write 0 (Superblock.naming k.version moved).toBytes)) D := by
  obtain ⟨E, hE, hr, hversion, htrails⟩ := h
  refine ⟨{ E with root := some moved }, ?_, rfl, hversion, htrails.setRoot hmoved⟩
  rw [← hversion]
  refine ⟨(fun hno => by cases hno), hE.plain, hE.ascending, hE.size_lt, .of_write _ _, ?_⟩
  rintro _ ⟨⟩
  have hseals : Seals b moved E.imageBytes := by
    rw [(hE.root c (hr.trans hroot)).unique hp]
    exact hq
  exact hseals.kept (Chunk.kept_of_spares (Chunk.spares_header hfirst _))

/-- The edition that the next commit makes, on a file with its root and superblock. -/
theorem Lists.stands_next {m : Nat} {root : Chunk} (h : Lists ids m k D)
    (hq : Seals b root k.nextBytes) (hfirst : headerBlocks ≤ root.first) :
    (k.nextEdition root).Stands (Change.apply b (.write 0 (k.nextEdition root).superblock.toBytes)) := by
  refine ⟨(fun hno => by cases hno), h.plain, k.data.ascending, ?_, .of_write _ _, ?_⟩
  · change k.nextBytes.size < _
    rw [Catalog.nextBytes, size_ofList, Image.length_toBytes]
    exact h.image
  · rintro _ ⟨⟩
    exact hq.kept (Chunk.kept_of_spares (Chunk.spares_header hfirst _))

theorem Lists.trails_next {m : Nat} {root : Chunk} {D' : Inventory} (h : Lists ids m k D)
    (hdata : D'.data = D.data) (hroot : root ∈ D'.held) : (k.nextEdition root).Trails D' := by
  intro d hd
  rcases Edition.mem_held.1 hd with hd | hd
  · exact .inl ⟨d, Inventory.mem_chunks.2 (.inl (hdata ▸ h.data.mem_iff.1 hd)), rfl, rfl⟩
  · obtain rfl := Option.some.inj hd
    exact (List.mem_append.1 hroot).imp (fun hc => ⟨_, hc, rfl, rfl⟩) fun hc => ⟨_, hc, rfl, rfl⟩

end Catalog

namespace Store

variable {δ : Type} [Device δ] [Fallible δ] {v : Store δ} {b : ByteArray} {D : Inventory}
  {k : Catalog} {s t : Site δ} {c : Chunk} {n start : Nat} {ids : UInt32 → Prop}

open Catalog

/-- The records follow a chunk that has moved, even if the superblock does not. -/
theorem register_endures (h : Lists ids n k s.inventory) (hstored : Stored k s.bytes s.inventory)
    (hs : s.Sound) (hm : s.Moves c start t) :
    Ends (register (c.movedTo start)) (⟨t.engine, k⟩ : Store δ) (fun _ w => ∃ b,
      (Lists ids n w.records t.inventory ∧ Stored w.records b t.inventory) ∧
      w.engine.appendFrom ≤ t.engine.appendFrom ∧ Site.Steps t ⟨w.engine, b, t.inventory⟩)
      fun f w => Fallible.refusal δ f ∧ ∃ b, (Lists ids n w.records t.inventory ∧
        Sheltered b t.inventory) ∧ Site.Steps t ⟨w.engine, b, t.inventory⟩ := by
  have hkept : c ∈ k.chunks := h.chunks_perm.mem_iff.2 hm.mem
  have hstored₁ := hstored.moves h.root hs hm
  have hids := h.ids_nodup
  have hsound := hm.sound hs
  have hsame := hm.kept hs c hm.mem
  have hinv := hm.inventory
  obtain ⟨p, hp, hr⟩ := hm.relocates
  obtain ⟨e₁, b₁, D₁⟩ := t
  obtain rfl : D₁ = _ := hinv
  unfold register
  rw [ends_bind, ends_get]
  dsimp only
  split
  · next hany =>
    obtain ⟨d, hd, hid⟩ := (Option.any_eq_true _ _).1 hany
    obtain rfl : d = c := List.inj_on_of_nodup_map hids (Catalog.mem_chunks.2 (.inr hd)) hkept
      (of_decide_eq_true hid)
    have hmoved := Site.moved_mem_chunks hm.mem start
    have hfirst := hsound.lodged.header_le _ (Inventory.mem_held_of_chunks hmoved)
    have hrenamed := hstored₁.rename hd (hp.kept hsame) hr.sealed hfirst hmoved
    have hsize := hsound.headerBytes_le (Inventory.mem_held_of_chunks hmoved) hr.sealed
    rw [ends_bind, ends_modify, Volume.onEngine, ends_within]
    refine (publish_endures ⟨⟩ Engine.sync (e := e₁) hsound.has hsize _ fun _ _ ht =>
      (Engine.sync_endures ht).mono (fun _ _ hu => ⟨rfl, hu⟩) fun _ _ hf => hf).mono ?_ ?_
    · rintro _ e₂ ⟨-, h₂⟩
      obtain ⟨happend, hstep⟩ := hsound.published hsize h₂
      exact ⟨_, ⟨h.setRoot hd rfl, hrenamed⟩, Nat.le_of_eq happend, .single hstep⟩
    · rintro f e₂ ⟨hf, h₂ | h₂⟩
      · exact ⟨hf, b₁, ⟨h.setRoot hd rfl, hstored₁.sheltered⟩,
          .single (.idle h₂)⟩
      · exact ⟨hf, _, ⟨h.setRoot hd rfl, hrenamed.sheltered⟩,
          .single (hsound.published hsize h₂).2⟩
  · next hany =>
    have hdata : c ∈ k.data.chunks := by
      refine (Catalog.mem_chunks.1 hkept).resolve_right fun hr => hany ?_
      rw [hr]
      exact decide_eq_true rfl
    have hfind : (k.data.find? (c.movedTo start).id).isSome :=
      Option.isSome_iff_exists.2 ⟨c, Roster.find?_eq_some.2 ⟨hdata, rfl⟩⟩
    have hother (d : Chunk) (hd : k.root = some d) : d.id ≠ (c.movedTo start).id := by
      intro hid
      rw [hd] at hany
      exact hany (decide_eq_true hid)
    rw [if_pos hfind]
    have hid : (c.movedTo start).id = c.id := rfl
    exact ends_modify.2
      ⟨b₁, ⟨h.insert hdata hid rfl hother true, hstored₁⟩, Nat.le_refl _, .refl⟩

theorem publishRoot_endures {e : Engine δ} (version : UInt64) (root : Chunk) (h : e.Has b)
    (hsize : headerBytes ≤ b.size) :
    Ends (publishRoot version root) e (fun last e' => root = last ∧
      e.Rests (Change.apply b (.write 0 (Superblock.naming version root).toBytes)) e')
      fun f e' => Fallible.refusal δ f ∧ (e.Rests b e' ∨
        e.Rests (Change.apply b (.write 0 (Superblock.naming version root).toBytes)) e') :=
  publish_endures root (do Engine.sync; return root) h hsize _ fun _ _ ht =>
    (Engine.sync_endures ht).bind (fun _ _ hu => ends_pure.2 ⟨rfl, hu⟩) fun _ _ hf => hf

/-- The new root counts in memory too, and the blocks of the old one and of the removed chunks are
given back. -/
theorem adoptRoot_endures {e : Engine δ} {root : Chunk} (h : Lists ids (n + 1) k D)
    (hold : ∀ c ∈ D.chunks, D.past c.id) (hid : root.id = k.nextId)
    (hs : Site.Sound ⟨e, b, D.crown root⟩) (hnext : (k.nextEdition root).Stands b)
    (hroom : e.appendFrom * blockSize < UInt64.size) :
    Ends (adoptRoot k root) ⟨e, { k with nextId := k.nextId + 1 }⟩ (fun _ w => ∃ D',
      (Lists ids n w.records D' ∧ Stored w.records b D') ∧
      Site.Steps ⟨e, b, D.crown root⟩ ⟨w.engine, b, D'⟩ ∧ w.engine.appendFrom ≤ e.appendFrom)
      fun _ _ => False := by
  obtain ⟨l, hperm, hsub⟩ := h.removed
  obtain ⟨rest, hrest⟩ := hsub.exists_perm_append
  have hloose : (D.root.toList ++ D.loose).Perm ((k.removed ++ k.root.toList) ++ rest) := by
    rw [← h.root]
    refine (((hrest.trans (hperm.append_right rest)).append_left _).trans ?_)
    rw [← List.append_assoc]
    exact List.perm_append_comm.append_right _
  unfold adoptRoot
  rw [ends_bind, ends_modify, ends_bind, Volume.onEngine, ends_within]
  refine (hs.freeAll_endures hloose hroom).mono ?_ fun _ _ => False.elim
  rintro _ e₁ ⟨happend, loose, -, hsteps⟩
  have hnewest : root ∈ Inventory.held { D.crown root with loose } :=
    Inventory.mem_held_of_chunks (Inventory.mem_chunks.2 (.inr rfl))
  exact ends_pure.2 ⟨_, ⟨h.commit hold hid (fun _ hp => hp), _, hnext, rfl, rfl,
    h.trails_next rfl hnewest⟩, hsteps, happend⟩

/-- A commit takes blocks for a new root and then gives back those of the old one and of the removed
chunks. Up to then the records are as they were. -/
theorem commit_endures (h : Lists ids (n + 1) v.records D) (hstored : Stored v.records b D)
    (hs : Site.Sound ⟨v.engine, b, D⟩)
    (hroom : (max v.engine.appendFrom (v.engine.reserved.high.getD 0) + Chunk.maxBlocks) * blockSize <
      Fallible.room δ) :
    Ends commit v (fun _ w => ∃ b' D', (Lists ids n w.records D' ∧ Stored w.records b' D') ∧
      Site.Steps ⟨v.engine, b, D⟩ ⟨w.engine, b', D'⟩ ∧ w.engine.appendFrom ≤
        max v.engine.appendFrom (v.engine.reserved.high.getD 0) + Chunk.maxBlocks)
      fun f w => Fallible.refusal δ f ∧ ∃ b' D', (Lists ids 0 w.records D' ∧ Sheltered b' D') ∧
        Site.Steps ⟨v.engine, b, D⟩ ⟨w.engine, b', D'⟩ := by
  have hlimit : 2 * Bytes.limit ≤ UInt64.size := by decide
  have hle := Fallible.room_le (δ := δ)
  have hnextId := h.nextId
  have hversion := h.version
  have hbytes : v.records.nextBytes.size < UInt32.size := by
    rw [Catalog.nextBytes, size_ofList, Image.length_toBytes]
    exact h.image
  have hblocks := Chunk.blocksFor_le hbytes
  have hceil := ceiling_heldBack_le v.engine
  refine commit_of_place (readOnly_of_has hs.has) (by omega) (by omega) ?_
  refine (hs.place_endures hbytes ?_).mono ?_ ?_
  · simp only [mul_blockSize] at *
    omega
  · rintro root e₁ ⟨hplaced, happend₁, b₁, hq, hsuper, hsteps₁⟩
    have hid : root.id = v.records.nextId := by rw [hplaced]; rfl
    have hsound₁ := hsteps₁.sound hs
    have hloosed : root ∈ root :: D.loose := List.mem_cons_self
    have hfirst := hsound₁.lodged.header_le root (List.mem_append_right _ hloosed)
    have hheader := hsound₁.headerBytes_le (c := root) (List.mem_append_right _ hloosed) hq
    have hstored₁ : Sheltered b₁ { D with loose := root :: D.loose } :=
      hstored.sheltered_of_steps h.root hs hsuper hsteps₁
    have hnext := h.stands_next hq hfirst
    have hfresh : ¬D.past root.id := fun hp => by
      have hlt := h.past _ hp
      rw [hid] at hlt
      exact UInt32.lt_irrefl _ hlt
    refine (publishRoot_endures _ root hsound₁.has hheader).mono ?_ ?_
    · rintro _ e₂ ⟨rfl, h₂⟩
      have hadopted : Site.Step ⟨e₁, b₁, { D with loose := root :: D.loose }⟩
          ⟨e₁, b₁, D.crown root⟩ := .succeed (.refl _) hfresh hq
      obtain ⟨happend₂, hstep₂⟩ := (hadopted.sound hsound₁).published hheader h₂
      have hsteps := (hsteps₁.tail hadopted).tail hstep₂
      change e₁.appendFrom ≤ max _ _ at happend₁
      change e₂.appendFrom = e₁.appendFrom at happend₂
      refine (adoptRoot_endures h hs.past hid (Site.Steps.sound hs hsteps) hnext ?_).mono ?_
        fun _ _ => False.elim
      · simp only [mul_blockSize] at *
        omega
      · rintro _ w ⟨D', hw, hsteps₃, happend₃⟩
        exact ⟨_, D', hw, hsteps.trans hsteps₃, by dsimp only at *; omega⟩
    · rintro f e₂ ⟨hf, h₂ | h₂⟩
      · exact ⟨hf, b₁, _, ⟨h.skipped (List.sublist_cons_self _ _), hstored₁⟩,
          hsteps₁.tail (.idle h₂)⟩
      · exact ⟨hf, _, _, ⟨h.skipped (List.sublist_cons_self _ _), _, hnext,
          h.trails_next rfl (List.mem_append_right _ hloosed)⟩,
          hsteps₁.tail (hsound₁.published hheader h₂).2⟩
  · rintro f e₁ ⟨hf, loose, hsub, hsteps⟩
    exact ⟨hf, b, _, ⟨h.skipped hsub, hstored.sheltered.loosen hsub.subset⟩, hsteps⟩

end Store

namespace Catalog

/-- A store keeps its records well through a compaction. -/
theorem tolerant (δ : Type) [Device δ] [Fallible δ] (ids : UInt32 → Prop) :
    Tolerant δ (conduct δ ids) where
  fails h := h
  mono h hmn := ⟨h.1.mono hmn, h.2⟩
  remains h := ⟨h.1.mono (Nat.zero_le _), h.2.sheltered⟩
  chunks h := h.1.chunks_perm
  chunk? h := h.1.find?_iff.trans ⟨fun hc => ⟨hc.1, hc.2, id⟩, fun hc => ⟨hc.1, hc.2.1⟩⟩
  root? h := h.1.root
  idle h hkept hsuper := ⟨h.1, h.2.kept h.1.root hkept hsuper⟩
  register h hs _ hm := (Store.register_endures h.1 h.2 hs hm).mono (fun _ _ hw => hw)
    fun _ _ hw => by
      obtain ⟨hf, b, ⟨hlists, hsheltered⟩, hsteps⟩ := hw
      exact ⟨b, .inl ⟨hf, hlists.mono (Nat.zero_le _), hsheltered⟩, hsteps⟩
  store h hs hroom := by
    change Ends (discard Store.commit) _ _ _
    rw [ends_discard]
    exact Store.commit_endures h.1 h.2 hs hroom

end Catalog

end BlockStore
