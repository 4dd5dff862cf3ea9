import BlockStore.Proofs.Effects
import BlockStore.Proofs.Shelter

namespace BlockStore

open BlockStore.Action Bytes Device

namespace Engine

section

variable {δ : Type} {e : Engine δ} {c : Chunk} {cs gone rest : List Chunk}

/-- Blocks of chunks can be given back, whatever the device. -/
theorem freeAll_total (hl : Lodged e.occupancy (gone ++ rest))
    (hroom : e.occupancy.stop * blockSize < UInt64.size) :
    Ends (gone.forM freeChunk) e (fun _ _ => True) fun _ _ => False := by
  refine (ends_forM (I := fun todo (e : Engine δ) => Lodged e.occupancy (todo ++ rest) ∧
    e.occupancy.stop * blockSize < UInt64.size) ⟨hl, hroom⟩ ?_).mono (fun _ _ _ => trivial)
    fun _ _ hf => hf
  rintro c todo e₁ ⟨hl₁, hroom₁⟩
  have hafter := hl₁.after_le_stop List.mem_cons_self
  have hfree := freeChunk_run hl₁ List.mem_cons_self
    (Nat.lt_of_le_of_lt (Nat.mul_le_mul_right _ hafter) hroom₁)
  refine .of_run hfree ⟨hl₁.drop .erase, Nat.lt_of_le_of_lt (Nat.mul_le_mul_right _ ?_) hroom₁⟩
  exact Occupancy.stop_le fun b hb => Occupancy.lt_stop (Bitmap.mem_eraseRange.1 hb).1

end

variable {δ : Type} [Device δ] [Fallible δ] {e : Engine δ} {c : Chunk} {cs : List Chunk}
  {b p : ByteArray}

/-- The file is `b`, and just the blocks of `e` are in use. -/
structure Restored (e : Engine δ) (b : ByteArray) (e' : Engine δ) : Prop where
  has : e'.Has b
  used : ∀ k, k ∈ e'.occupancy.used ↔ k ∈ e.occupancy.used

/-- The device refuses with errors that a caller can see. -/
def Candid (δ : Type) [Device δ] [Fallible δ] : Prop :=
  ∀ f, Fallible.refusal δ f → ∃ cause, f = .error cause

/-- A payload that the device refuses takes no room. -/
theorem place_restores (hcandid : Candid δ) (h : e.Has b) (hl : Lodged e.occupancy cs)
    (hp : p.size < UInt32.size)
    (hroom : (e.occupancy.ceiling e.heldBack + Chunk.blocksFor p.size) * blockSize <
      Fallible.room δ) :
    Ends (place c p) e (fun _ _ => True) fun f e' => Fallible.refusal δ f ∧ Restored e b e' := by
  refine (place_returns (F := fun f d => Fallible.refusal δ f ∧ Fallible.Has d b)
    (readOnly_of_has h) hl hp (Nat.lt_trans hroom room_lt_word) fun start data hle _ hsize => ?_).mono
    (fun _ _ h => h) fun f e' ⟨⟨hf, hd⟩, hreturned⟩ => ?_
  · refine (Fallible.write_ends h ?_ ?_).mono (fun _ _ _ => trivial) fun _ _ hf => hf
    · have hpos := (Chunk.blocksFor_bounds hp).1
      rw [hsize, mul_blockSize]
      omega
    · rw [hsize, ← Nat.add_mul]
      exact Nat.lt_of_le_of_lt (Nat.mul_le_mul_right _ (Nat.add_le_add_right hle _)) hroom
  · obtain ⟨cause, rfl⟩ := hcandid f hf
    exact ⟨hf, hd, (hreturned cause rfl).used⟩

end Engine

/-- What a commit gives back is among what stands on the blocks. -/
theorem Catalog.Lists.lodged_gone {ids : UInt32 → Prop} {n : Nat} {k : Catalog} {D : Inventory}
    {o : Occupancy} {root : Chunk} (h : Catalog.Lists ids n k D)
    (hl : Lodged o (Inventory.held { D with loose := root :: D.loose })) :
    ∃ rest, Lodged o ((k.removed ++ k.root.toList) ++ rest) := by
  obtain ⟨l, hperm, hsub⟩ := h.removed
  obtain ⟨rest, hrest⟩ := hsub.exists_perm_append
  refine ⟨D.data ++ root :: rest, hl.perm (List.perm_iff_count.2 fun a => ?_)⟩
  have hcount := (hrest.trans (hperm.append_right rest)).count_eq a
  rw [Inventory.held, Inventory.chunks, h.root]
  simp only [List.count_append, List.count_cons] at hcount ⊢
  omega

namespace Store

open Engine

variable {δ : Type} [Device δ] [Fallible δ] {v w : Store δ} {b : ByteArray} {D : Inventory}
  {ids : UInt32 → Prop}

/-- A new root is in the file and keeps its blocks, though the records do not name it. -/
structure Stranded (v : Store δ) (root : Chunk) (w : Store δ) : Prop where
  vacant : v.engine.occupancy.Vacant root.first root.len.toNat
  used : ∀ k, k ∈ w.engine.occupancy.used ↔ k ∈ v.engine.occupancy.used ∨ root.Covers k
  sealed : ∃ b, w.engine.Has b ∧ Seals b root v.records.nextBytes

omit [Fallible δ] in
/-- Once the file names the root nothing can fail any more. -/
theorem adoptRoot_total {old : Catalog} {root : Chunk} {rest : List Chunk}
    (hl : Lodged v.engine.occupancy ((old.removed ++ old.root.toList) ++ rest))
    (hroom : v.engine.occupancy.stop * blockSize < UInt64.size) :
    Ends (adoptRoot old root) v (fun _ _ => True) fun _ _ => False := by
  unfold adoptRoot
  rw [ends_bind, ends_modify, ends_bind, Volume.onEngine, ends_within]
  exact (freeAll_total hl hroom).mono (fun _ _ _ => ends_pure.2 trivial) fun _ _ => False.elim

/-- If the device refuses to make the file name the root, the root keeps its blocks. -/
theorem publishRoot_strands {root : Chunk} {records : Catalog} {e : Engine δ}
    (h : e.Has b) (hsize : headerBytes ≤ b.size) (version : UInt64)
    (hhouses : v.engine.Houses v.engine.heldBack root e) (hq : Seals b root v.records.nextBytes)
    (hheader : headerBlocks ≤ root.first) :
    Ends (publishRoot version root) e
      (fun last e' => root = last ∧ e'.occupancy = e.occupancy) fun f e' =>
        Fallible.refusal δ f ∧ ∃ root, v.Stranded root ⟨e', records⟩ := by
  refine (publishRoot_endures version root h hsize).mono (fun _ _ hw => ⟨hw.1, hw.2.occupancy⟩) ?_
  rintro f e' ⟨hf, hrests⟩
  have hstranded {b' : ByteArray} (hrests : e.Rests b' e')
      (hq : Seals b' root v.records.nextBytes) : ∃ root, v.Stranded root ⟨e', records⟩ := by
    refine ⟨root, hhouses.room.vacant, fun k => ?_, b', hrests.has, hq⟩
    rw [hrests.occupancy]
    exact hhouses.mem_used
  refine ⟨hf, hrests.elim (hstranded · hq) fun hrests => hstranded hrests ?_⟩
  exact hq.kept (Chunk.kept_of_spares (Chunk.spares_header hheader _))

/-- A commit that fails has taken an id. If it fails before its root is in the file, nothing else has
changed; if it fails later, the blocks of that root stay in use. -/
theorem commit_strands (hcandid : Candid δ) (h : Catalog.Lists ids 1 v.records D)
    (hs : Site.Sound ⟨v.engine, b, D⟩)
    (hroom : (max v.engine.appendFrom (v.engine.reserved.high.getD 0) + Chunk.maxBlocks) * blockSize <
      Fallible.room δ) :
    Ends commit v (fun _ _ => True) fun f w => Fallible.refusal δ f ∧
      w.records = { v.records with nextId := v.records.nextId + 1 } ∧
      (v.engine.Restored b w.engine ∨ ∃ root, v.Stranded root w) := by
  have hlt := room_lt_word (δ := δ)
  have hnextId := h.nextId
  have hversion := h.version
  have hbytes : v.records.nextBytes.size < UInt32.size := by
    rw [Catalog.nextBytes, size_ofList, Image.length_toBytes]
    exact h.image
  have hblocks := Chunk.blocksFor_le hbytes
  have hceil := ceiling_heldBack_le v.engine
  have hplace : (v.engine.occupancy.ceiling v.engine.heldBack +
      Chunk.blocksFor v.records.nextBytes.size) * blockSize < Fallible.room δ := by
    simp only [mul_blockSize] at *
    omega
  refine commit_of_place (readOnly_of_has hs.has) (by omega) (by omega) ?_
  refine (((hs.place_endures hbytes hplace).and (place_houses hs.lodged.blockSize)).and
    (place_restores hcandid hs.has hs.lodged hbytes hplace)).mono ?_ ?_
  · rintro root e₁ ⟨⟨⟨-, happend, b₁, hq, -, hsteps⟩, -, -, hhouses⟩, -⟩
    have hsound₁ := hsteps.sound hs
    have hloosed : root ∈ Inventory.held { D with loose := root :: D.loose } :=
      List.mem_append_right _ List.mem_cons_self
    refine (publishRoot_strands (e := e₁) hsound₁.has (hsound₁.headerBytes_le hloosed hq) _ hhouses hq
      (hsound₁.lodged.header_le root hloosed)).mono ?_ fun _ _ hf => ⟨hf.1, rfl, .inr hf.2⟩
    rintro _ e₂ ⟨rfl, hoccupancy⟩
    obtain ⟨rest, hl⟩ := h.lodged_gone hsound₁.lodged
    refine (adoptRoot_total (hoccupancy ▸ hl) ?_).mono (fun _ _ h => h) fun _ _ => False.elim
    have hstop : e₁.occupancy.stop ≤ e₁.appendFrom := Nat.le_max_right _ _
    change e₁.appendFrom ≤ max v.engine.appendFrom _ at happend
    change e₂.occupancy.stop * blockSize < _
    rw [hoccupancy]
    simp only [mul_blockSize] at *
    omega
  · rintro f e₁ ⟨-, hf, hrestored⟩
    exact ⟨hf, rfl, .inl hrestored⟩

end Store

namespace Session

open Store

variable {δ ν : Type} [Device δ] [Lawful δ] {allowed : Request → Prop} {s : Session δ}
  {t : Traced δ ν}

/-- If the device refuses a call of a commit, the commit fails with that error. The records are as
before, but for the next id. So are the blocks in use if the new root is not in the file; once it is,
it keeps its blocks. -/
theorem commit_failure_strands (hfails : ¬Lawful.fails δ) (h : Reachable allowed s)
    (hs : Spacious s.store) (ht : t.inner = s.store.engine.device) :
    Ends Store.commit (s.store.on t) (fun _ _ => True) fun f w =>
      (∃ kind, f = .error (.device (.planned kind))) ∧
      w.records = { s.store.records with nextId := s.store.records.nextId + 1 } ∧
      ∃ b, Fallible.Has t b ∧
        ((s.store.on t).engine.Restored b w.engine ∨ ∃ root, (s.store.on t).Stranded root w) := by
  obtain ⟨hn, m, E, hcons⟩ := h.known
  have hhas : Fallible.Has t m.content := ⟨m, ht ▸ hcons.shows, rfl⟩
  have hsound : Site.Sound ⟨(s.store.on t).engine, m.content, s.store.inventory⟩ :=
    hcons.site hhas rfl
  have hlists := (hcons.lists hs.roomy).mono (show 1 ≤ 4 by decide)
  have happend : (s.store.on t).engine.appendFrom ≤ s.store.extent := hcons.appendFrom_on_le ht
  have hreserved : (s.store.on t).engine.reserved = .nothing := hn
  have hcandid : Engine.Candid (Traced δ ν) := fun f hf =>
    hf.elim (fun hf => absurd hf hfails) fun ⟨kind, hkind⟩ => ⟨_, hkind⟩
  refine (commit_strands hcandid hlists hsound ?_).mono (fun _ _ _ => trivial) ?_
  · have hroom : _ < Fallible.room (Traced δ ν) := hs.ample.room
    rw [hreserved]
    simp only [Reserved.nothing, Option.getD_some, mul_blockSize] at *
    omega
  · rintro f w ⟨hf, hrecords, houtcome⟩
    exact ⟨hf.resolve_left hfails, hrecords, m.content, hhas, houtcome⟩

/-- So it is for a store in memory with a committed chunk and one that has not been committed, if the
next sync is refused. -/
theorem commit_failure_strands_unsynced : ∃ (s : Session Memory) (t : Traced Memory Unit)
    (f : Failure) (w : Store (Traced Memory Unit)), Reachable (fun _ => True) s ∧
    (s.ledger.committed 1).isSome ∧ s.ledger.committed 3 = none ∧ (s.ledger.live 3).isSome ∧
    t.inner = s.store.engine.device ∧ t.plan .sync = some 0 ∧
    Store.commit (s.store.on t) = (.error f, w) ∧
      (∃ kind, f = .error (.device (.planned kind))) ∧
      w.records = { s.store.records with nextId := s.store.records.nextId + 1 } ∧
      ∃ b, Fallible.Has t b ∧
        ((s.store.on t).engine.Restored b w.engine ∨ ∃ root, (s.store.on t).Stranded root w) := by
  have hforecast : ∃ f ∈ Forecast.run Bytes.limit [.zeros 10, .commit, .zeros 10]
      ⟨.blank {}, {}⟩, f.sketch.Spacious Bytes.limit ∧ (f.ledger.committed 1).isSome ∧
        f.ledger.committed 3 = none ∧ (f.ledger.live 3).isSome := by decide +kernel
  obtain ⟨s, horderly, -, hspacious, hone, hthree, hlive⟩ :=
    exists_in_memory ⟨rfl, by decide⟩ hforecast
  have hs : Reachable (fun _ => True) s := horderly.mono fun _ _ => trivial
  let t : Traced Memory Unit :=
    ⟨s.store.engine.device, #[], fun kind => if kind = .sync then some 0 else none⟩
  have hspacious' := spacious_of_sketch (Nat.le_refl _) hspacious
  rcases hrun : Store.commit (s.store.on t) with ⟨f | version, w⟩
  · exact ⟨s, t, f, w, hs, hone, hthree, hlive, rfl, rfl, hrun,
      (commit_failure_strands (fun h => h) hs hspacious' rfl).error f w hrun⟩
  · exact ((commit_refused (v := s.store.on t) rfl).ok version w hrun).elim

end Session

end BlockStore
