import BlockStore.Proofs.Collaboration
import BlockStore.Proofs.Commit
import BlockStore.Proofs.Records

namespace BlockStore

open BlockStore.Action Device Bytes Engine

theorem Superblock.not_isChunk (s : Superblock) : ¬IsChunk s.toBytes := by
  intro h
  rw [IsChunk, toBytes, toList_append, copy, toList_grow, toList_ofList, record, body] at h
  simp only [List.append_assoc] at h
  rw [List.take_append_of_le_length (by decide)] at h
  exact absurd h (by decide)

variable {δ : Type} [Device δ]

namespace Engine.Serves

variable {e e₁ : Engine (Recorder δ)} {freed : Bool} {placed : List (Chunk × ByteArray)}

theorem sync_ends (h : e.Serves freed placed e₁) :
    Ends sync e₁ (fun _ e₂ => e.Serves freed placed e₂) Any :=
  sync_idle.mono (fun _ _ h' => h.idle h') fun _ _ hf => hf

theorem header_ends (h : e.Serves freed placed e₁) (s : Superblock) :
    Ends (Engine.write 0 s.toBytes) e₁ (fun _ e₂ => e.Serves freed placed e₂) Any :=
  ends_run.mono (fun _ _ hrun => h.header s.not_isChunk
    (by rw [Superblock.size_toBytes, Nat.zero_add]) hrun) fun _ _ hf => hf

theorem freeAll_ends (h : e.Serves freed placed e₁) (cs : List Chunk) :
    Ends (cs.forM freeChunk) e₁ (fun _ e₂ => ∃ freed, e.Serves freed placed e₂) Any :=
  ends_forM (I := fun _ e₂ => ∃ freed, e.Serves freed placed e₂) ⟨freed, h⟩
    fun _ _ _ ⟨_, h'⟩ => ends_run.mono (fun _ _ hrun => ⟨true, h'.free hrun⟩) fun _ _ hf => hf

theorem place_ends {c : Chunk} {payload : ByteArray} (h : e.Serves false placed e₁)
    (hb : e₁.occupancy.blockSize = blockSize) :
    Ends (place c payload) e₁ (fun d e₂ => d.id = c.id ∧ ∃ placed, e.Serves false placed e₂) Any := by
  refine place_of_settle
    (fun _ _ _ ⟨hid, _, h'⟩ => ⟨hid, _, h'.idle (.of_eq rfl rfl rfl)⟩) fun len framed pool _ => ?_
  have h₂ : e.Serves false placed { e₁ with pool } := h.idle (.of_eq rfl rfl rfl)
  refine (ends_run.and (allocateFor_grants (e := { e₁ with pool }) hb)).bind ?_ fun _ _ _ => trivial
  rintro ⟨d, framed⟩ e₃ ⟨hrun, hid, -⟩
  have h₃ := h₂.allocate hrun
  refine ends_run.bind (fun _ e₄ hrun => ?_) fun _ _ hf => hf
  exact ends_pure.2 ⟨hid, _, h₃.write List.mem_cons_self hrun⟩

end Engine.Serves

namespace Catalog

/-- Each id stands for one chunk, and those to come for none. -/
structure Distinct (c : Catalog) : Prop where
  nodup : (c.chunks.map Chunk.id).Nodup
  lt : ∀ id ∈ c.chunks.map Chunk.id, id < c.nextId

theorem Distinct.perm {c d : Catalog} (h : c.Distinct)
    (hp : (d.chunks.map Chunk.id).Perm (c.chunks.map Chunk.id)) (hn : d.nextId = c.nextId) :
    d.Distinct :=
  ⟨hp.nodup_iff.2 h.nodup, fun id hid => hn ▸ h.lt id (hp.mem_iff.1 hid)⟩

variable {v : Store (Recorder δ)} {c : Chunk}

theorem commit_serves (hb : v.engine.occupancy.blockSize = blockSize) :
    Ends Store.commit v (fun _ w => (∃ freed placed, v.engine.Serves freed placed w.engine) ∧
      w.records.data = v.records.data ∧ w.records.nextId.toNat = v.records.nextId.toNat + 1 ∧
      ∃ root, w.records.root = some root ∧ root.id = v.records.nextId) Any := by
  refine Store.commit_of_root (fun _ => trivial) (fun _ => trivial) (fun _ _ => trivial)
    fun _ hlt _ => ?_
  refine (Serves.start.place_ends hb).bind ?_ fun _ _ hf => hf
  rintro root e₁ ⟨hid, placed, h₁⟩
  refine h₁.sync_ends.bind (fun _ e₂ h₂ => ?_) fun _ _ hf => hf
  refine (h₂.header_ends _).bind (fun _ e₃ h₃ => ?_) fun _ _ hf => hf
  refine h₃.sync_ends.bind (fun _ e₄ h₄ => ends_pure.2 ?_) fun _ _ hf => hf
  unfold Store.adoptRoot
  rw [ends_bind, ends_modify, ends_bind, Volume.onEngine, ends_within]
  refine (h₄.freeAll_ends _).mono ?_ fun _ _ hf => hf
  rintro _ e₅ ⟨freed, h₅⟩
  exact ends_pure.2 ⟨⟨freed, placed, h₅⟩, rfl, UInt32.toNat_ofNat_of_lt' hlt, root, rfl, hid⟩

theorem Distinct.moveRoot {records : Catalog} {root : Chunk} (h : records.Distinct)
    (hr : records.root = some root) (hid : root.id = c.id) :
    Distinct { records with root := some c } := by
  refine h.perm (.of_eq ?_) rfl
  rw [chunks, chunks, hr, List.map_append, List.map_append]
  exact congrArg (fun i => records.data.chunks.map Chunk.id ++ [i]) hid.symm

theorem Distinct.insert {records : Catalog} {d : Chunk} (h : records.Distinct)
    (hd : records.data.find? c.id = some d) (dirty : Bool) :
    Distinct { records with data := records.data.insert c, dirty } := by
  obtain ⟨hmem, hid⟩ := Roster.find?_eq_some.1 hd
  have hnew := (records.data.insert_perm c).map Chunk.id
  have hold := (Roster.perm_erase hmem).map Chunk.id
  rw [hid, List.map_cons, hid] at hold
  refine h.perm ?_ rfl
  rw [chunks, chunks, List.map_append, List.map_append]
  exact (hnew.trans hold.symm).append_right _

theorem register_serves (h : v.records.Distinct) :
    Ends (Store.register c) v (fun _ w => w.records.Distinct ∧ v.engine.Serves false [] w.engine ∧
      (∀ id, id ≠ c.id → w.records.find? id = v.records.find? id) ∧
      ((v.records.find? c.id).isSome → w.records.find? c.id = some c)) Any := by
  unfold Store.register
  rw [ends_bind, ends_get]
  dsimp only
  split
  · next hany =>
    obtain ⟨root, hroot, hid⟩ := (Option.any_eq_true _ _).1 hany
    have hid := of_decide_eq_true hid
    rw [ends_bind, ends_modify, Volume.onEngine, ends_within]
    refine (Serves.start (e := v.engine)).sync_ends.bind (fun _ e₁ h₁ => ?_) fun _ _ hf => hf
    refine (h₁.header_ends _).bind (fun _ e₂ h₂ => ?_) fun _ _ hf => hf
    refine h₂.sync_ends.mono (fun _ e₃ h₃ => ?_) fun _ _ hf => hf
    have hdistinct := h.moveRoot hroot hid
    refine ⟨hdistinct, h₃, fun id hne => ?_, fun _ => ?_⟩
    · rw [find?, find?, hroot, Option.filter_some, Option.filter_some, if_neg, if_neg]
      · exact fun heq => hne (hid.symm.trans (of_decide_eq_true heq)).symm
      · exact fun heq => hne (of_decide_eq_true heq).symm
    · exact (find?_eq_some_iff hdistinct.nodup).2 ⟨mem_chunks.2 (.inr rfl), rfl⟩
  · next hroot =>
    split
    · next hdata =>
      obtain ⟨d, hd⟩ := Option.isSome_iff_exists.1 hdata
      rw [ends_modify]
      refine ⟨h.insert hd true, .start, fun id hne => ?_, fun _ => ?_⟩
      · rw [find?, find?, Roster.find?_insert, if_neg hne.symm]
      · rw [find?, Roster.find?_insert, if_pos rfl, Option.some_or]
    · next hdata =>
      refine ends_pure.2 ⟨h, .start, fun _ _ => rfl, fun hsome => ?_⟩
      obtain ⟨d, hd⟩ := Option.isSome_iff_exists.1 hsome
      rcases Option.or_eq_some_iff.1 hd with hd | ⟨-, hd⟩
      · exact absurd (by rw [hd]; rfl) hdata
      · obtain ⟨hd, hid⟩ := Option.filter_eq_some_iff.1 hd
        exact absurd (by rw [hd]; exact hid) hroot

/-- The id of a new root is one that no chunk had. -/
theorem Distinct.next {old new : Catalog} {root : Chunk} (h : old.Distinct)
    (hdata : new.data = old.data) (hnext : new.nextId.toNat = old.nextId.toNat + 1)
    (hroot : new.root = some root) (hid : root.id = old.nextId) : new.Distinct ∧
      ∀ id c, new.find? id = some c → old.find? id = some c ∨ old.find? id = none := by
  have hlt : ∀ id ∈ old.data.chunks.map Chunk.id, id < old.nextId := fun id hm =>
    h.lt id (by rw [chunks, List.map_append]; exact List.mem_append_left _ hm)
  have hids : new.chunks.map Chunk.id = old.data.chunks.map Chunk.id ++ [old.nextId] := by
    rw [chunks, hdata, hroot, List.map_append, ← hid]
    rfl
  have hdistinct : new.Distinct := by
    constructor <;> rw [hids]
    · refine List.nodup_append.2 ⟨old.data.nodup_ids, List.nodup_singleton _, fun a ha b hb => ?_⟩
      exact List.mem_singleton.1 hb ▸ UInt32.ne_of_lt (hlt a ha)
    · intro id hm
      rw [UInt32.lt_iff_toNat_lt, hnext]
      rcases List.mem_append.1 hm with hm | hm
      · exact Nat.lt_succ_of_lt (UInt32.lt_iff_toNat_lt.1 (hlt id hm))
      · exact List.mem_singleton.1 hm ▸ Nat.lt_succ_self _
  refine ⟨hdistinct, fun id c hc => ?_⟩
  obtain ⟨hmem, rfl⟩ := (find?_eq_some_iff hdistinct.nodup).1 hc
  rcases mem_chunks.1 hmem with hmem | hmem
  · exact .inl ((find?_eq_some_iff h.nodup).2 ⟨mem_chunks.2 (.inl (hdata ▸ hmem)), rfl⟩)
  · obtain rfl := Option.some.inj (hroot.symm.trans hmem)
    refine .inr (Option.eq_none_iff_forall_ne_some.2 fun d hd => ?_)
    obtain ⟨hd, heq⟩ := (find?_eq_some_iff h.nodup).1 hd
    exact UInt32.ne_of_lt (h.lt d.id (List.mem_map_of_mem hd)) (heq.trans hid)

theorem registers : Keeper.Registers δ Catalog Distinct where
  lookup h := congrArg find? h
  id_eq h := id_of_find? h
  listed h hc := (find?_eq_some_iff h.nodup).2 ⟨hc, rfl⟩
  nodup h := h.nodup
  register := register_serves

theorem collaborates : Keeper.Collaborates δ Catalog Distinct where
  toRegisters := registers
  store {v} h hb := by
    change Ends (discard Store.commit) v _ _
    rw [ends_discard]
    refine (commit_serves hb).mono ?_ fun _ _ hf => hf
    rintro _ w ⟨hserves, hdata, hnext, root, hroot, hid⟩
    obtain ⟨hdistinct, hfound⟩ := h.next hdata hnext hroot hid
    exact ⟨hdistinct, hserves, hfound⟩

end Catalog

end BlockStore
