import BlockStore.Proofs.CatalogKeeper
import BlockStore.Proofs.Effects
import BlockStore.Proofs.Reopening

namespace BlockStore

open BlockStore.Action Engine Device

namespace Catalog

/-- Each id stands for one chunk, those to come for none, and no payload is without a block. -/
structure Orderly (c : Catalog) : Prop extends c.Distinct where
  len_pos : ∀ d ∈ c.data.chunks, 0 < d.len.toNat

namespace Orderly

variable {records : Catalog} {c : Chunk} {id : UInt32}

theorem of_held (hnodup : (records.held.map Chunk.id).Nodup)
    (hlt : ∀ c ∈ records.held, c.id < records.nextId)
    (hlen : ∀ c ∈ records.held, 0 < c.len.toNat) : records.Orderly where
  nodup := Catalog.nodup_ids_chunks hnodup
  lt _ hid := by
    obtain ⟨c, hc, rfl⟩ := List.mem_map.1 hid
    exact hlt c (records.chunks_subperm.subset hc)
  len_pos c hc := hlen c (records.data_subperm.subset hc)

variable (h : records.Orderly)

include h

theorem root_absent (hroot : records.root = some c) : records.data.find? c.id = none := by
  refine Roster.find?_eq_none.2 fun d hd hid => ?_
  have hnodup := h.nodup
  rw [chunks, hroot, List.map_append] at hnodup
  exact (List.nodup_append.1 hnodup).2.2 d.id (List.mem_map_of_mem hd) c.id
    (List.mem_map_of_mem List.mem_cons_self) hid

theorem len_pos_of_find? (hc : records.data.find? id = some c) : 0 < c.len.toNat :=
  h.len_pos c (Roster.find?_eq_some.1 hc).1

theorem issue (hlt : records.nextId.toNat + 1 < UInt32.size) :
    Orderly { records with nextId := records.nextId + 1 } :=
  ⟨⟨h.nodup, fun i hi => UInt32.lt_trans (h.lt i hi) (Store.self_lt_succ_id hlt)⟩, h.len_pos⟩

theorem len_pos_insert (hc : 0 < c.len.toNat) :
    ∀ d ∈ (records.data.insert c).chunks, 0 < d.len.toNat := fun d hd => by
  rcases List.mem_cons.1 ((records.data.insert_perm c).mem_iff.1 hd) with rfl | hd
  · exact hc
  · exact h.len_pos d (Roster.mem_erase.1 hd).1

theorem add (hid : c.id ∉ records.chunks.map Chunk.id) (hlt : c.id < records.nextId)
    (hc : 0 < c.len.toNat) :
    Orderly { records with data := records.data.insert c, dirty := true } := by
  have habsent : ∀ d ∈ records.data.chunks, d.id ≠ c.id := fun d hd heq =>
    hid (heq ▸ List.mem_map_of_mem (mem_chunks.2 (.inl hd)))
  have hnew := (records.data.insert_perm c).map Chunk.id
  rw [Roster.chunks_erase_of_absent habsent] at hnew
  have hids : (((records.data.insert c).chunks ++ records.root.toList).map Chunk.id).Perm
      (c.id :: records.chunks.map Chunk.id) := by
    rw [chunks, List.map_append, List.map_append]
    exact hnew.append_right _
  refine ⟨⟨hids.nodup_iff.2 (List.nodup_cons.2 ⟨hid, h.nodup⟩), fun i hi => ?_⟩, h.len_pos_insert hc⟩
  rcases List.mem_cons.1 (hids.mem_iff.1 hi) with rfl | hi
  · exact hlt
  · exact h.lt i hi

theorem replace {d : Chunk} (hd : records.data.find? c.id = some d) (hc : 0 < c.len.toNat) :
    Orderly { records with data := records.data.insert c, dirty := true } :=
  ⟨h.toDistinct.insert hd true, h.len_pos_insert hc⟩

theorem drop (removed : List Chunk) (id : UInt32) :
    Orderly { records with data := records.data.erase id, removed, dirty := true } := by
  have hsub : ((records.data.erase id).chunks ++ records.root.toList).Sublist records.chunks :=
    (List.filter_sublist ..).append_right _
  exact ⟨⟨h.nodup.sublist (hsub.map _), fun i hi => h.lt i ((hsub.map _).subset hi)⟩,
    fun d hd => h.len_pos d (Roster.mem_erase.1 hd).1⟩

end Orderly

/-- What the records `k` become when they take note of a chunk. -/
structure Notes (k : Catalog) (c : Chunk) (k' : Catalog) : Prop where
  nextId : k'.nextId = k.nextId
  removed : k'.removed = k.removed
  root : k'.root = k.root.map fun root => if root.id = c.id then c else root
  data : k'.data = if (k.data.find? c.id).isSome then k.data.insert c else k.data
  others : ∀ id, id ≠ c.id → k'.find? id = k.find? id

theorem Notes.find?_self {k k' : Catalog} {c d : Chunk} (h : k.Notes c k')
    (hd : k.find? c.id = some d) : k'.find? c.id = some c := by
  rw [find?, h.data]
  split
  · rw [Roster.find?_insert, if_pos rfl, Option.some_or]
  · next hdata =>
    rw [Option.not_isSome_iff_eq_none] at hdata
    rw [find?, hdata, Option.none_or] at hd
    obtain ⟨hroot, hid⟩ := Option.filter_eq_some_iff.1 hd
    rw [hdata, Option.none_or, h.root, hroot, Option.map_some, if_pos (of_decide_eq_true hid)]
    exact Option.filter_eq_some_iff.2 ⟨rfl, decide_eq_true rfl⟩

end Catalog

namespace Store

variable {δ : Type} [Device δ] {v w : Store δ} {c moved : Chunk} {r : Reserved} {id : UInt32}

/-- What the requests to a store keep, whatever becomes of them. -/
structure InOrder (v : Store δ) : Prop where
  records : v.records.Orderly
  blockSize : v.engine.occupancy.blockSize = blockSize

omit [Device δ] in
theorem InOrder.of_terms (h : InOrder v) (hw : w.records.Orderly)
    (ht : terms w.engine = terms v.engine) : InOrder w :=
  ⟨hw, (congrArg (fun t => t.2.2) ht).trans h.blockSize⟩

omit [Device δ] in
theorem InOrder.onEngine {α : Type} {act : Action (Engine δ) α} (hact : Action.Fixes terms act) :
    Preserves InOrder (Volume.onEngine act : Action (Store δ) α) :=
  fun _ h => h.of_terms h.records (hact _)

/-- What a commit that succeeds has done. -/
structure Renewed (v w : Store δ) : Prop where
  inOrder : InOrder w
  data : w.records.data = v.records.data
  nextId : w.records.nextId.toNat = v.records.nextId.toNat + 1
  root : ∃ root, w.records.root = some root ∧ root.id = v.records.nextId ∧
    v.engine.occupancy.Outside v.engine.heldBack root.first root.len.toNat ∧
    ∀ b ∈ w.engine.occupancy.used, b ∈ v.engine.occupancy.used ∨ root.Covers b

/-- A commit stores the catalog in a new root. Where it fails, the payloads are where they were. -/
theorem commit_renews (h : InOrder v) :
    Ends commit v (fun _ => Renewed v)
      fun _ w => InOrder w ∧ w.records.data = v.records.data := by
  have hfixes := fixes_iff.1 (commit_fixes (aloof_terms (δ := δ))) v
  have hends : Ends commit v (fun _ => Renewed v)
      fun _ w => w.records.Orderly ∧ w.records.data = v.records.data := by
    refine commit_of_root (fun _ => ⟨h.records, rfl⟩) (fun _ => ⟨h.records, rfl⟩)
      (fun hlt _ => ⟨h.records.issue hlt, rfl⟩) fun _ hlt _ => ?_
    refine (publish_houses h.blockSize fun root =>
      (Superblock.naming (v.records.version + 1) root).toBytes).mono ?_
        fun _ _ _ => ⟨h.records.issue hlt, rfl⟩
    rintro root e₁ ⟨hid, hhouses⟩
    unfold adoptRoot
    rw [ends_bind, ends_modify, ends_bind, Volume.onEngine, ends_within]
    have hnext : (v.records.nextId + 1).toNat = v.records.nextId.toNat + 1 := by
      rw [UInt32.toNat_add]
      exact Nat.mod_eq_of_lt hlt
    have horderly : Catalog.Orderly { v.records with
        nextId := v.records.nextId + 1
        root := some root
        removed := []
        version := v.records.version + 1
        dirty := false } :=
      ⟨And.left (h.records.toDistinct.next rfl hnext rfl hid), h.records.len_pos⟩
    refine (freeAll_vacates (hhouses.blockSize_eq.trans h.blockSize) _).mono ?_
      fun _ _ _ => ⟨horderly, rfl⟩
    rintro _ e₂ ⟨hb, hsub⟩
    exact ends_pure.2 ⟨⟨horderly, hb⟩, rfl, hnext, root, rfl, hid, hhouses.room.outside,
      fun b hb => hhouses.mem_used.1 (hsub b hb)⟩
  exact (hends.and hfixes).mono (fun _ _ hw => hw.1)
    fun _ _ hw => ⟨h.of_terms hw.1.1 hw.2, hw.1.2⟩

/-- The records name the new place of a chunk, if they know it. -/
theorem register_orderly (h : v.records.Orderly)
    (hc : (v.records.data.find? c.id).isSome → 0 < c.len.toNat) :
    Ends (register c) v (fun _ w => w.records.Orderly ∧ w.engine.plan = v.engine.plan ∧
      v.records.Notes c w.records)
      fun _ w => w.records.Orderly ∧
        (v.records.data.find? c.id = none → w.records.data = v.records.data) := by
  unfold register
  rw [ends_bind, ends_get]
  dsimp only
  split
  · next hany =>
    obtain ⟨root, hroot, hid⟩ := (Option.any_eq_true _ _).1 hany
    have hid := of_decide_eq_true hid
    have habsent : v.records.data.find? c.id = none := hid ▸ h.root_absent hroot
    have horderly : Catalog.Orderly { v.records with root := some c } :=
      ⟨h.toDistinct.moveRoot hroot hid, h.len_pos⟩
    have hpublish : Action.Fixes (plan (δ := δ)) (do
        Engine.sync
        Engine.write 0 (Superblock.naming v.records.version c).toBytes
        Engine.sync) :=
      .bind sync_plan fun _ => .bind (write_plan _ _) fun _ => sync_plan
    rw [ends_bind, ends_modify, Volume.onEngine, ends_within]
    refine (fixes_iff.1 hpublish v.engine).mono (fun _ e hplan => ?_) fun _ _ _ => ?_
    · refine ⟨horderly, hplan, rfl, rfl, ?_, ?_, fun id hne => ?_⟩
      · rw [hroot, Option.map_some, if_pos hid]
      · rw [habsent]
        rfl
      · rw [Catalog.find?, Catalog.find?, hroot, Option.filter_some, Option.filter_some, if_neg, if_neg]
        · exact fun heq => hne (hid.symm.trans (of_decide_eq_true heq)).symm
        · exact fun heq => hne (of_decide_eq_true heq).symm
    · exact ⟨horderly, fun _ => rfl⟩
  · next hany =>
    have hroot : v.records.root = v.records.root.map fun root => if root.id = c.id then c else root := by
      cases hsome : v.records.root with
      | none => rfl
      | some root =>
        rw [hsome, Option.any_some, decide_eq_true_eq] at hany
        rw [Option.map_some, if_neg hany]
    split
    · next hdata =>
      obtain ⟨d, hd⟩ := Option.isSome_iff_exists.1 hdata
      refine ends_modify.2 ⟨h.replace hd (hc hdata), rfl, rfl, rfl, hroot, (if_pos hdata).symm, ?_⟩
      intro id hne
      rw [Catalog.find?, Catalog.find?, Roster.find?_insert, if_neg hne.symm]
    · next hdata =>
      exact ends_pure.2 ⟨h, rfl, rfl, rfl, hroot, (if_neg hdata).symm, fun _ _ => rfl⟩

/-- What a move that succeeds has done. -/
structure Shift (v : Store δ) (r : Reserved) (c moved : Chunk) (w : Store δ) : Prop extends
    Rehouses v.engine r c moved w.engine where
  inOrder : InOrder w
  nextId : w.records.nextId = v.records.nextId
  find?_of_ne : ∀ id, id ≠ c.id → w.records.find? id = v.records.find? id
  data : w.records.data = if (v.records.data.find? c.id).isSome then v.records.data.insert moved
    else v.records.data

namespace Shift

variable {i : UInt32}

omit [Device δ] in
theorem data_find? (h : Shift v r c moved w) (i : UInt32) : w.records.data.find? i =
    (v.records.data.find? i).map fun d => if c.id = i then moved else d := by
  rw [h.data]
  split
  · next hs =>
    rw [Roster.find?_insert, h.id_eq]
    split
    · next heq =>
      obtain ⟨d, hd⟩ := Option.isSome_iff_exists.1 hs
      rw [← heq, hd, Option.map_some]
    · exact Option.map_id'.symm
  · next hs =>
    by_cases heq : c.id = i
    · rw [heq, Option.not_isSome_iff_eq_none] at hs
      rw [hs, Option.map_none]
    · simp only [if_neg heq, Option.map_id']

omit [Device δ] in
theorem isSome_data_find? (h : Shift v r c moved w) (i : UInt32) :
    (w.records.data.find? i).isSome = (v.records.data.find? i).isSome := by
  rw [h.data_find?, Option.isSome_map]

omit [Device δ] in
theorem data_find?_of_ne (h : Shift v r c moved w) (hne : c.id ≠ i) :
    w.records.data.find? i = v.records.data.find? i := by
  simp only [h.data_find?, if_neg hne, Option.map_id']

end Shift

theorem move_shifts (h : InOrder v) : Ends (Volume.move id r) v (fun out w =>
    (v.records.find? id = none ∧ out = none ∧ w = v) ∨
      ∃ c moved, v.records.find? id = some c ∧ out = some moved ∧ Shift v r c moved w)
    fun _ w => InOrder w ∧ (v.records.data.find? id = none → w.records.data = v.records.data) := by
  have hfixes := fixes_iff.1 (move_fixes (aloof_terms (δ := δ)) id r) v
  have hends : Ends (Volume.move id r) v (fun out w =>
      (v.records.find? id = none ∧ out = none ∧ w = v) ∨
        ∃ c moved, v.records.find? id = some c ∧ out = some moved ∧ Shift v r c moved w)
      fun _ w => w.records.Orderly ∧
        (v.records.data.find? id = none → w.records.data = v.records.data) := by
    unfold Volume.move
    rw [ends_bind, ends_get]
    cases hfind : v.chunk? id with
    | none => exact ends_pure.2 (.inl ⟨hfind, rfl, rfl⟩)
    | some c =>
      dsimp only
      rw [ends_bind, Volume.onEngine, ends_within]
      refine (relocate_rehouses h.blockSize).mono (fun moved e₁ hre => ?_)
        fun _ _ _ => ⟨h.records, fun _ => rfl⟩
      have hid : c.id = id := Catalog.id_of_find? hfind
      have hlen : (v.records.data.find? moved.id).isSome → 0 < moved.len.toNat := by
        rw [hre.id_eq, hid, hre.len_eq]
        exact fun hs => h.records.len_pos_of_find? (Catalog.data_find?_of_find? hfind hs)
      refine (register_orderly (v := ⟨e₁, v.records⟩) h.records hlen).bind ?_ ?_
      · rintro _ w ⟨horderly, hplan, hnotes⟩
        have hothers := hnotes.others
        have hdata := hnotes.data
        rw [hre.id_eq] at hothers hdata
        have hre := hre.of_plan hplan
        exact ends_pure.2 (.inr ⟨c, moved, hfind, rfl, hre,
          ⟨horderly, hre.blockSize.trans h.blockSize⟩, hnotes.nextId, hothers, hdata⟩)
      · rintro _ w ⟨horderly, hdata⟩
        rw [hre.id_eq, hid] at hdata
        exact ⟨horderly, hdata⟩
  exact (hends.and hfixes).mono (fun _ _ hw => hw.1)
    fun _ _ hw => ⟨h.of_terms hw.1.1 hw.2, hw.1.2⟩

theorem lasting_inOrder : Lasting (fun _ => True) (InOrder (δ := δ)) where
  sync := .onEngine aloof_terms.sync
  trim := .onEngine (.bind (.discard (aloof_terms.shrink 0)) fun _ => aloof_terms.sync)
  reserve _ _ h := ⟨h.records, h.blockSize⟩
  commit := preserves_iff.2 fun _ h =>
    (commit_renews h).mono (fun _ _ hw => hw.inOrder) fun _ _ hw => hw.1
  move _ _ := preserves_iff.2 fun _ h => (move_shifts h).mono (fun _ _ hw => by
    rcases hw with ⟨-, -, rfl⟩ | ⟨_, _, -, -, hw⟩
    · exact h
    · exact hw.inOrder) fun _ _ hw => hw.1
  root _ _ := trivial

theorem write_inOrder (payload : ByteArray) : Preserves (InOrder (δ := δ)) (write payload) := by
  refine preserves_iff.2 fun v h => ?_
  have hfixes := fixes_iff.1 (write_fixes (aloof_terms (δ := δ)) payload) v
  have hends : Ends (write payload) v (fun _ w => w.records.Orderly) fun _ w => w.records.Orderly := by
    refine write_of_place (fun _ => h.records) (fun _ => h.records)
      (fun hlt _ => h.records.issue hlt) fun _ hlt _ => ?_
    refine (place_houses h.blockSize).mono ?_ fun _ _ _ => h.records.issue hlt
    rintro c e₁ ⟨hid, hlen, -⟩
    refine (h.records.issue hlt).add ?_ ?_ hlen
    · exact fun hmem => UInt32.lt_irrefl _ (hid ▸ h.records.lt c.id hmem)
    · exact hid ▸ self_lt_succ_id hlt
  exact (hends.and hfixes).mono (fun _ _ hw => h.of_terms hw.1 hw.2) fun _ _ hw => h.of_terms hw.1 hw.2

theorem read_inOrder (id : UInt32) : Preserves (InOrder (δ := δ)) (read id) := by
  unfold read
  refine .bind preserves_get fun v => ?_
  cases v.records.find? id with
  | none => exact preserves_refuse _
  | some c => exact .bind (.onEngine (aloof_terms.load c)) fun _ => preserves_pure _

theorem remove_inOrder (id : UInt32) : Preserves (InOrder (δ := δ)) (remove id) := by
  unfold remove guardWritable
  refine .bind (.bind preserves_get fun _ => .ite (preserves_refuse _) (preserves_pure _)) fun _ => ?_
  refine .bind preserves_get fun v => ?_
  cases v.records.data.find? id with
  | none => exact preserves_refuse _
  | some c => exact preserves_modify fun v h => ⟨h.records.drop _ id, h.blockSize⟩

theorem openAgain_opens (settings : Settings) :
    Ends (openAgain settings) v (fun _ w => ∃ d, openOn settings d = .ok w) Any := by
  rw [ends_iff, openAgain]
  rcases hopen : openOn settings v.engine.device with ⟨f, d⟩ | w
  · trivial
  · exact ⟨_, hopen⟩

end Store

namespace Request

open Store

variable {δ : Type} [Device δ] {q : Request} {v : Store δ}

theorem run_inOrder (hq : q.Stays) : Preserves (InOrder (δ := δ)) q.run := by
  by_cases hc : q.Compacts
  · exact run_preserves_of_compacts lasting_inOrder (fun _ => trivial) hc
  cases q with
  | write payload => exact .bind (write_inOrder payload) fun _ => preserves_pure _
  | read id => exact .bind (.attempt (read_inOrder id)) fun _ => preserves_pure _
  | remove id => exact .bind (.attempt (remove_inOrder id)) fun _ => preserves_pure _
  | commit => exact .bind (.discard lasting_inOrder.commit) fun _ => preserves_pure _
  | reopen settings => exact hq.elim
  | abandon settings => exact hq.elim
  | _ => exact (hc trivial).elim

/-- The other requests end with a store that has just been opened. -/
theorem run_opens (hq : ¬q.Stays) :
    Ends q.run v (fun _ w => ∃ settings d, openOn settings d = .ok w) Any := by
  have hopen (settings : Settings) (u : Store δ) : Ends (do
      Store.openAgain settings
      return Reply.done) u (fun _ w => ∃ settings d, openOn settings d = .ok w) Any :=
    (openAgain_opens settings).bind (fun _ _ hw => ends_pure.2 ⟨settings, hw⟩) fun _ _ hf => hf
  cases q with
  | reopen settings => exact ends_bind.2 (ends_any fun _ u => hopen settings u)
  | abandon settings => exact hopen settings v
  | _ => exact (hq trivial).elim

end Request

namespace Store

variable {δ : Type} [Device δ] {v w : Store δ}

/-- The stores that come about from a file with an orderly catalog, whatever becomes of requests. -/
inductive Arisen : Store δ → Prop
  | opened {d : δ} {settings : Settings} {v : Store δ} :
      openOn settings d = .ok v → v.records.Orderly → Arisen v
  | asked {v : Store δ} {q : Request} : q.Stays → Arisen v → Arisen (q.run v).2

theorem Arisen.inOrder (h : Arisen v) : InOrder v := by
  induction h with
  | opened hopen hv => exact ⟨hv, congrArg Prod.snd (steady_of_openOn hopen).shape⟩
  | asked hq _ ih => exact Request.run_inOrder hq _ ih

theorem Consistent.orderly [Lawful δ] {m : Medium} {E : Edition} {live committed : Contents}
    {shield : Nat → Prop} (h : Consistent v m E live committed shield) : v.records.Orderly :=
  .of_held h.ids_nodup h.ids_lt h.layout.len_pos

/-- A file that a crash has left, for one, has an orderly catalog. -/
theorem arisen_of_recovers [Lawful δ] {d : δ} {m : Medium} {contents : Contents}
    {settings : Settings} (hd : Lawful.Shows d m) (h : Recovers m.content contents)
    (hopen : openOn settings d = .ok v) : Arisen v := by
  obtain ⟨E, hE⟩ := h
  obtain ⟨w, hw, hopened⟩ := openOn_of_read hd hE (usable_of_openOn hopen)
  obtain rfl := Except.ok.inj (hopen.symm.trans hw)
  have hheld : E.catalog.held = E.held := hE.sound.isCatalog.held_eq
  have hnext : E.catalog.nextId = E.nextId := hE.sound.isCatalog.nextId
  refine .opened hopen (hopened.records ▸ .of_held ?_ ?_ ?_) <;> rw [hheld]
  · exact hE.sound.ids_nodup
  · exact hnext ▸ hE.sound.ids_lt
  · exact hE.sound.len_pos

/-- A file that requests have led to, none of which failed, has an orderly catalog. -/
theorem Attained.arisen [Faithful δ] (h : Attained v) : Arisen v := by
  induction h with
  | @opened d m settings v hroom hd hm hopen =>
    obtain ⟨m, E, live, committed, hcons⟩ := (Attained.opened hroom hd hm hopen).sane.consistent
    exact .opened hopen hcons.orderly
  | @answered v w q reply hv hrun ih =>
    by_cases hq : q.Stays
    · have hw := ih.asked hq
      rwa [hrun] at hw
    · obtain ⟨m, E, live, committed, hcons⟩ := (Attained.answered hv hrun).sane.consistent
      obtain ⟨settings, d, hopen⟩ := (Request.run_opens hq).ok _ _ hrun
      exact .opened hopen hcons.orderly

end Store

end BlockStore
