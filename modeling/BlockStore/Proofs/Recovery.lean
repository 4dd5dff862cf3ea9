import BlockStore.Store
import BlockStore.Proofs.Edition
import BlockStore.Proofs.Engine
import BlockStore.Proofs.Catalog

namespace BlockStore

namespace Edition

open BlockStore.Action Engine Device Bytes

/-- The records of a store that has just read the edition. -/
def catalog (E : Edition) : Catalog :=
  match E.root with
  | none => {}
  | some root => .ofImage E.image root

structure IsCatalog (E : Edition) (c : Catalog) : Prop where
  data : c.data.chunks = E.chunks
  root : c.root = E.root
  removed : c.removed = []
  nextId : c.nextId = E.nextId
  version : c.version = E.version
  dirty : c.dirty = false

theorem Sound.isCatalog {E : Edition} (h : E.Sound) : E.IsCatalog E.catalog := by
  unfold catalog
  split
  · next hr =>
    have := h.blank hr
    subst this
    exact ⟨rfl, rfl, rfl, rfl, rfl, rfl⟩
  · next root hr => exact ⟨Roster.chunks_ofList h.ascending, hr.symm, rfl, rfl, rfl, rfl⟩

theorem IsCatalog.held_eq {E : Edition} {c : Catalog} (h : E.IsCatalog c) : c.held = E.held := by
  rw [Catalog.held, h.data, h.root, h.removed, List.append_nil, held]

variable {δ : Type} [Device δ] [Lawful δ] {e : Engine δ} {m : Medium} {E : Edition}
  {contents : Contents}

theorem namesRoot_naming {root : Chunk} (version : UInt64)
    (h : root.after * blockSize < UInt64.size) (hpos : 0 < root.len.toNat) :
    (Superblock.naming version root).namesRoot = true := by
  refine decide_eq_true ⟨fun hun => ?_, UInt32.lt_iff_toNat_lt.2 hpos⟩
  have hb : root.block = unsaved := hun
  rw [Chunk.after_eq, mul_blockSize, Chunk.first, hb] at h
  simp only [unsaved, UInt64.size] at h
  have : (0xFFFFFFFFFFFFFFFF : UInt64).toNat = 18446744073709551615 := by decide
  omega

/-- Marking chunks that are apart takes their blocks one after another. -/
theorem markAll_ends {cs : List Chunk} (h : e.Shows m)
    (ho : Layout e.occupancy []) (ha : cs.Pairwise Chunk.Apart)
    (hle : ∀ c ∈ cs, headerBlocks ≤ c.first) (hlen : ∀ c ∈ cs, 0 < c.len.toNat)
    (hroom : ∀ c ∈ cs, c.after * blockSize < UInt64.size) :
    Ends (cs.forM markChunk) e (fun _ e' => e'.Shows m ∧ e'.mode = e.mode ∧ Layout e'.occupancy cs)
      fun _ _ => False := by
  refine (ends_forM (I := fun rest e' => e'.Shows m ∧ e'.mode = e.mode ∧
    ∃ done, done.reverse ++ rest = cs ∧ Layout e'.occupancy done) ⟨h, rfl, [], rfl, ho⟩
    fun c rest e₁ => ?_).mono ?_ fun _ _ => False.elim
  · rintro ⟨h₁, hm, done, rfl, hl⟩
    have hc : c ∈ done.reverse ++ c :: rest := List.mem_append_right _ List.mem_cons_self
    have hapart : ∀ d ∈ done, c.Apart d := fun d hd =>
      ((List.pairwise_append.1 ha).2.2 d (List.mem_reverse.2 hd) c List.mem_cons_self).symm
    have hv := hl.vacant hapart (hle c hc)
    refine (markChunk_ends h₁ hl.blockSize (hroom c hc) hv).mono ?_ fun _ _ => False.elim
    rintro _ e₂ ⟨h₂, hm₂, ho₂⟩
    refine ⟨h₂, hm₂.trans hm, c :: done, by simp, ?_⟩
    rw [ho₂]
    exact hl.add (hlen c hc) hv
  · rintro _ e₂ ⟨h₂, hm₂, done, hdone, hl⟩
    refine ⟨h₂, hm₂, hl.perm ?_⟩
    rw [← hdone, List.append_nil]
    exact done.reverse_perm.symm

theorem read_image (hplain : ∀ c ∈ E.chunks, c.priority = 0)
    (hsize : E.imageBytes.size < UInt32.size) : Image.read (toList E.imageBytes) = .ok E.image := by
  refine Image.read_toBytes hplain ?_
  rw [imageBytes, size_ofList, Image.length_toBytes] at hsize
  have hcount : E.image.chunks.length ≤ Image.entrySize * E.image.chunks.length :=
    Nat.le_mul_of_pos_left _ (by decide)
  have : UInt32.size < UInt64.size := by decide
  omega

/-- The record of the root can be told from the head of its frame. -/
theorem Sound.root_eq {root : Chunk} (h : E.Sound) (hr : E.root = some root)
    (hf : Frame.Fits root E.imageBytes) : ({
      id := root.id
      block := root.block
      len := root.len
      version := root.version
      size := E.imageBytes.size.toUInt32.toUInt64
      liveSize := E.imageBytes.size.toUInt32.toUInt64
      next := root.next } : Chunk) = root := by
  have hsize : E.imageBytes.size.toUInt32.toUInt64 = E.imageBytes.size.toUInt64 := by
    refine UInt64.toNat_inj.1 ?_
    have := hf.2
    simp only [UInt32.toNat_toUInt64, Frame.toNat_payload hf]
    exact (UInt64.toNat_ofNat_of_lt' (by simp only [UInt32.size, UInt64.size] at *; omega)).symm
  rw [hsize, h.root root hr]

/-- Whoever reads an edition gets its records, with the blocks of its chunks in use. -/
theorem Read.recover_ends (hE : E.Read m.content contents) (h : e.Shows m)
    (ho : e.occupancy = .create headerBlocks blockSize) :
    Ends Store.recover e (fun records e' => records = E.catalog ∧ e'.Shows m ∧ e'.mode = e.mode ∧
      Layout e'.occupancy E.held) fun _ _ => False := by
  have hlt := room_lt (δ := δ)
  have hsize := Lawful.size_lt h
  have hempty : Layout e.occupancy [] := ho ▸ Layout.create
  have hhead : 0 < headerBytes := by decide
  have hle := hE.headerBytes_le
  unfold Store.recover
  rw [ends_bind, ends_get, size_eq h, if_neg (by omega), if_neg (by omega), ends_bind]
  refine (read_ends h (by omega)).mono ?_ fun _ _ => False.elim
  rintro _ e₁ ⟨rfl, k₁⟩
  rw [ends_bind]
  refine (ends_except (congrArg (Except.mapError _) hE.superblock)).2 ?_
  have hl₁ : Layout e₁.occupancy [] := k₁.2.1 ▸ hempty
  cases hr : E.root with
  | none =>
    have := hE.sound.blank hr
    subst this
    exact ends_pure.2 ⟨rfl, k₁.1, k₁.2.2, hl₁⟩
  | some root =>
    have hroot := hE.backed.root root hr
    have hmem : root ∈ E.held := mem_held.2 (.inr hr)
    have hpos := hE.sound.len_pos root hmem
    have hbound (c : Chunk) (hc : c ∈ E.held) : c.after * blockSize < UInt64.size := by
      have := hE.backed.after_le hc
      omega
    have hsb : E.superblock = .naming E.version root := by rw [Edition.superblock, hr]
    have hnames := namesRoot_naming E.version (hbound root hmem) hpos
    rw [hsb, hnames, if_pos rfl, ends_bind]
    refine (load_ends (d := root)
      (c := { id := root.id, block := root.block, len := root.len, version := E.version })
      k₁.1 hroot.holds hroot.fits rfl rfl rfl).mono ?_ fun _ _ => False.elim
    rintro _ e₂ ⟨rfl, k₂⟩
    dsimp only
    have himage := read_image hE.sound.plain hroot.fits.2
    rw [Frame.payload_framed hroot.fits, ends_bind]
    refine (ends_except (congrArg (Except.mapError _) himage)).2 ?_
    have hrecord := hE.sound.root_eq hr hroot.fits
    rw [if_neg (fun hne => hne rfl)]
    change Ends (do
      markChunk (Chunk.mk root.id root.block root.len root.version
        E.imageBytes.size.toUInt32.toUInt64 E.imageBytes.size.toUInt32.toUInt64 root.next 0)
      E.chunks.forM markChunk
      return Catalog.ofImage E.image (Chunk.mk root.id root.block root.len root.version
        E.imageBytes.size.toUInt32.toUInt64 E.imageBytes.size.toUInt32.toUInt64 root.next 0)) e₂ _ _
    rw [hrecord]
    have k₂ := k₁.trans k₂
    have hl₂ : Layout e₂.occupancy [] := k₂.2.1 ▸ hempty
    have hperm : E.held.Perm (root :: E.chunks) := by
      rw [held, hr]
      exact List.perm_append_singleton root E.chunks
    have hall : Ends (markChunk root >>= fun _ => E.chunks.forM markChunk) e₂ _ _ :=
      markAll_ends k₂.1 hl₂ ((hperm.pairwise_iff Chunk.Apart.symm).1 hE.sound.apart)
      (fun c hc => hE.sound.header_le c (hperm.mem_iff.2 hc))
      (fun c hc => hE.sound.len_pos c (hperm.mem_iff.2 hc))
      (fun c hc => hbound c (hperm.mem_iff.2 hc))
    rw [ends_bind] at hall ⊢
    refine hall.mono (fun _ e₃ h₃ => ?_) fun _ _ => False.elim
    refine h₃.bind (fun _ e₄ h₄ => ends_pure.2 ?_) fun _ _ => False.elim
    refine ⟨by rw [catalog, hr], h₄.1, h₄.2.1.trans k₂.2.2, h₄.2.2.perm hperm.symm⟩

end Edition

/-- Settings that a store accepts and whose buffers have an address each. The check of the settings
does not ask for the second, and a store whose pool is larger than that does not open. -/
def Settings.Usable (s : Settings) : Prop :=
  s.check = .ok () ∧ max s.poolSize 1 * BufferPool.placeSize < Bytes.limit

/-- What opening makes of an empty file. -/
def Medium.created (m : Medium) : Medium :=
  (m.change (.write 0 ({} : Superblock).toBytes)).sync

theorem Medium.settled_created (m : Medium) : Edition.blank.Settled m.created fun _ => none where
  sound := Edition.blank_sound
  backed := Edition.blank_backed _
  names := by
    change Superblock.Names {} m.created.durable
    rw [created, sync, content_change]
    exact .of_write {} _
  calm_header := Medium.calm_sync _ _ _
  calm := nofun

namespace Store

open BlockStore.Action Engine Device Bytes

variable {δ : Type} [Device δ] [Lawful δ] {d : δ} {m : Medium} {E : Edition} {contents : Contents}
  {settings : Settings}

/-- The engine of a store that has just been opened. -/
structure Opened (settings : Settings) (m : Medium) (E : Edition) (v : Store δ) : Prop where
  shows : v.engine.Shows m
  mode : v.engine.mode = ⟨settings, .nothing, settings.reuseSpace⟩
  layout : Layout v.engine.occupancy E.held
  records : v.records = E.catalog

omit [Lawful δ] in
theorem openOn_eq (hs : settings.Usable) : ∃ e : Engine δ, e.device = d ∧
    e.occupancy = .create headerBlocks blockSize ∧
    e.mode = ⟨settings, .nothing, settings.reuseSpace⟩ ∧
    openOn settings d = match recover e with
      | (.ok records, e) => .ok ⟨e, records⟩
      | (.error f, e) => .error (f, e.device) := by
  have hpool : BufferPool.create settings.poolSize = .ok ⟨max settings.poolSize 1, []⟩ := by
    rw [BufferPool.create, room_eq_ok.2 hs.2]
    rfl
  let e : Engine δ := ⟨d, settings, .create headerBlocks blockSize, .nothing, settings.reuseSpace,
    ⟨max settings.poolSize 1, []⟩, {}⟩
  have hcreate : Engine.create d settings = .ok e := by
    rw [Engine.create, hpool]
    rfl
  refine ⟨e, rfl, rfl, rfl, ?_⟩
  rcases hrun : recover e with ⟨_ | _, _⟩ <;> simp only [openOn, hs.1, hcreate, hrun]

omit [Lawful δ] in
theorem openOn_of_recover {P : Store δ → Prop} {F : Prop} (hs : settings.Usable)
    (hrecover : ∀ e : Engine δ, e.device = d → e.occupancy = .create headerBlocks blockSize →
      e.mode = ⟨settings, .nothing, settings.reuseSpace⟩ →
      Ends recover e (fun records e' => P ⟨e', records⟩) fun _ _ => F) :
    (∃ v, openOn settings d = .ok v ∧ P v) ∨ F ∧ ∃ failed, openOn settings d = .error failed := by
  obtain ⟨e₀, hd, ho, hm, hopen⟩ := openOn_eq (d := d) hs
  have hends := hrecover e₀ hd ho hm
  rw [hopen]
  rcases hrun : recover e₀ with ⟨f | records, e⟩
  · exact .inr ⟨hends.error f e hrun, _, rfl⟩
  · exact .inl ⟨_, rfl, hends.ok records e hrun⟩

omit [Lawful δ] in
/-- Settings that a store was opened with are usable. -/
theorem usable_of_openOn {v : Store δ} (h : openOn settings d = .ok v) : settings.Usable := by
  unfold openOn at h
  split at h
  · cases h
  · next hcheck =>
    refine ⟨hcheck, ?_⟩
    split at h
    · cases h
    · next engine hcreate =>
      rw [← room_eq_ok]
      cases hroom : room (max settings.poolSize 1 * BufferPool.placeSize) with
      | ok => rfl
      | error f =>
        rw [Engine.create, BufferPool.create, hroom] at hcreate
        cases hcreate

/-- A file with an edition on it opens as that edition, whatever the settings. -/
theorem openOn_of_read (hd : Lawful.Shows d m) (hE : E.Read m.content contents)
    (hs : settings.Usable) : ∃ v, openOn settings d = .ok v ∧ v.Opened settings m E := by
  refine (openOn_of_recover (F := False) hs fun e he ho hm => ?_).resolve_right fun h => h.1
  have h : e.Shows m := by rwa [Engine.Shows, he]
  refine (hE.recover_ends h ho).mono ?_ fun _ _ => False.elim
  rintro _ e' ⟨rfl, h', hm', hl⟩
  exact ⟨h', hm'.trans hm, hl, rfl⟩

/-- An empty file becomes an empty store, unless the device refuses. -/
theorem openOn_of_empty (hd : Lawful.Shows d m) (hm : m.content.size = 0) (hs : settings.Usable)
    (hroom : headerBytes < Lawful.room δ) :
    (∃ v, openOn settings d = .ok v ∧ v.Opened settings m.created .blank) ∨
      Lawful.fails δ ∧ ∃ failed, openOn settings d = .error failed := by
  refine openOn_of_recover hs fun e he ho hmode => ?_
  have h : e.Shows m := by rwa [Engine.Shows, he]
  unfold recover
  rw [ends_bind, ends_get, size_eq h, if_pos hm, readOnly_eq h, if_neg Bool.false_ne_true]
  refine (write_ends h (Superblock.size_toBytes_pos _) ?_).bind (fun _ e₁ k₁ => ?_) fun _ _ h => h.1
  · rwa [Superblock.size_toBytes, Nat.zero_add]
  refine (sync_ends k₁.1).bind (fun _ e₂ k₂ => ?_) fun _ _ h => h.1
  have k₂ := k₁.trans k₂
  refine ends_pure.2 ⟨k₂.1, k₂.2.2.trans hmode, ?_, rfl⟩
  rw [k₂.2.1, ho]
  exact Layout.create

end Store

end BlockStore
