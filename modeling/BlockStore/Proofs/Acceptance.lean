import BlockStore.Proofs.Reading

namespace BlockStore

open BlockStore.Action Bytes

namespace Superblock

variable {b : ByteArray} {s t : Superblock} {pos : Nat}

/-- The copy that counts: the sound one of the higher version, of equal ones the second. -/
inductive Chosen (b : ByteArray) (s : Superblock) : Prop
  | first : readCopy? b 0 = some s →
      (∀ t, readCopy? b blockSize = some t → t.version < s.version) → Chosen b s
  | second : readCopy? b blockSize = some s →
      (∀ t, readCopy? b 0 = some t → t.version ≤ s.version) → Chosen b s

theorem readCopy?_header (h : pos + recordSize ≤ headerBytes) :
    readCopy? (slice b 0 headerBytes) pos = readCopy? b pos := by
  have hraw : toList (slice (slice b 0 headerBytes) pos recordSize) =
      toList (slice b pos recordSize) := by
    rw [toList_slice, toList_slice, toList_slice, List.drop_zero, List.drop_take, List.take_take,
      Nat.min_eq_left (by omega)]
  rw [readCopy?, readCopy?, hraw]

theorem read_eq_ok : read (slice b 0 headerBytes) = .ok s ↔ s.Chosen b := by
  rw [read, readCopy?_header (by decide), readCopy?_header (by decide)]
  constructor
  · intro h
    rcases hx : readCopy? b 0 with _ | x <;> rcases hy : readCopy? b blockSize with _ | y <;>
      rw [hx, hy] at h
    · cases h
    · cases h
      exact .second hy fun t ht => by rw [hx] at ht; cases ht
    · cases h
      exact .first hx fun t ht => by rw [hy] at ht; cases ht
    · have h := Except.ok.inj h
      split at h
      · next hlt =>
        subst h
        refine .first hx fun t ht => ?_
        obtain rfl := Option.some.inj (hy.symm.trans ht)
        exact hlt
      · next hle =>
        subst h
        refine .second hy fun t ht => ?_
        obtain rfl := Option.some.inj (hx.symm.trans ht)
        exact UInt64.not_lt.1 hle
  · rintro (⟨hx, hother⟩ | ⟨hy, hother⟩)
    · rw [hx]
      rcases hy : readCopy? b blockSize with _ | y
      · rfl
      · exact congrArg Except.ok (if_pos (hother y hy))
    · rw [hy]
      rcases hx : readCopy? b 0 with _ | x
      · rfl
      · exact congrArg Except.ok (if_neg (UInt64.not_lt.2 (hother x hx)))

theorem Chosen.unique (h : s.Chosen b) (h' : t.Chosen b) : s = t :=
  Except.ok.inj ((read_eq_ok.2 h).symm.trans (read_eq_ok.2 h'))

/-- The chunk that the superblock names as the root. -/
def named (s : Superblock) : Chunk :=
  { id := s.rootId, block := s.rootBlock, len := s.rootLen, version := s.version }

/-- The root, once the head of its frame is known. -/
def rootOf (s : Superblock) (head : Frame.Head) : Chunk :=
  { s.named with
    version := head.version
    next := head.next
    size := head.payload.toUInt64
    liveSize := head.payload.toUInt64 }

/-- The bytes of the blocks that the superblock points to. -/
def rootBytes (s : Superblock) (b : ByteArray) : ByteArray :=
  slice b (s.named.first * blockSize) s.named.byteLen

/-- In the file, a sound frame where the superblock points to holds an image of its version. -/
structure Leads (s : Superblock) (b : ByteArray) (root : Chunk) (image : Image) : Prop where
  within : s.named.after * blockSize ≤ b.size
  framed : ∃ head, Frame.verify (s.rootBytes b) s.named = .ok head ∧ root = s.rootOf head ∧
    Image.read (toList (Frame.payload (s.rootBytes b) head)) = .ok image
  version : image.version = s.version

theorem Leads.unique {root root' : Chunk} {image image' : Image} (h : s.Leads b root image)
    (h' : s.Leads b root' image') : root = root' ∧ image = image' := by
  obtain ⟨head, hhead, rfl, himage⟩ := h.framed
  obtain ⟨head', hhead', rfl, himage'⟩ := h'.framed
  obtain rfl := Except.ok.inj (hhead.symm.trans hhead')
  exact ⟨rfl, Except.ok.inj (himage.symm.trans himage')⟩

end Superblock

/-- What a file says of itself: the records of its store, and the chunks that these occupy. -/
inductive Describes (b : ByteArray) : Catalog → List Chunk → Prop
  | rootless {s : Superblock} : s.Chosen b → s.namesRoot = false → Describes b {} []
  | rooted {s : Superblock} {root : Chunk} {image : Image} : s.Chosen b → s.namesRoot = true →
      s.Leads b root image → Describes b (.ofImage image root) (root :: image.chunks)

theorem Describes.unique {b : ByteArray} {r r' : Catalog} {cs cs' : List Chunk}
    (h : Describes b r cs) (h' : Describes b r' cs') : r = r' ∧ cs = cs' := by
  cases h with
  | rootless hs hno =>
    cases h' with
    | rootless => exact ⟨rfl, rfl⟩
    | rooted hs' hnames =>
      rw [hs'.unique hs, hno] at hnames
      cases hnames
  | rooted hs hnames hleads =>
    cases h' with
    | rootless hs' hno =>
      rw [hs'.unique hs, hnames] at hno
      cases hno
    | rooted hs' hnames' hleads' =>
      obtain rfl := hs.unique hs'
      obtain ⟨rfl, rfl⟩ := hleads.unique hleads'
      exact ⟨rfl, rfl⟩

theorem Describes.exists_chosen {b : ByteArray} {r : Catalog} {cs : List Chunk}
    (h : Describes b r cs) : ∃ s : Superblock, s.Chosen b := by
  cases h with
  | rootless hs => exact ⟨_, hs⟩
  | rooted hs => exact ⟨_, hs⟩

/-- No block belongs to two of the chunks, or to one and to the header. -/
structure Separate (cs : List Chunk) : Prop where
  header : ∀ c ∈ cs, ∀ b, c.Covers b → headerBlocks ≤ b
  disjoint : cs.Pairwise fun c d => ∀ b, c.Covers b → ¬d.Covers b

theorem mem_used_create (n : Nat) :
    n ∈ (Occupancy.create headerBlocks blockSize).used ↔ n < headerBlocks := by
  simp [Occupancy.create]

theorem admits_create {cs : List Chunk} :
    (Occupancy.create headerBlocks blockSize).Admits cs ↔ Separate cs := by
  constructor
  · rintro ⟨hvacant, hdisjoint⟩
    refine ⟨fun c hc b hb => Nat.le_of_not_lt fun hlt => ?_, hdisjoint⟩
    exact hvacant c hc b hb.1 hb.2 ((mem_used_create b).2 hlt)
  · rintro ⟨hheader, hdisjoint⟩
    refine ⟨fun c hc b h1 h2 hb => ?_, hdisjoint⟩
    exact Nat.not_lt.2 (hheader c hc b ⟨h1, h2⟩) ((mem_used_create b).1 hb)

/-- The file is long enough, and what it says of itself makes sense. -/
structure Accepted (b : ByteArray) (records : Catalog) (chunks : List Chunk) : Prop where
  headerBytes_le : headerBytes ≤ b.size
  describes : Describes b records chunks
  separate : Separate chunks

namespace Accepted

variable {b : ByteArray} {records : Catalog} {chunks : List Chunk} {s : Superblock}
  (h : Accepted b records chunks) (hs : s.Chosen b) (hnames : s.namesRoot = true)

include h hs hnames

/-- Whatever else the file says, it says it by way of this superblock. -/
theorem leads : ∃ root image, s.Leads b root image ∧ Separate (root :: image.chunks) := by
  cases h.describes with
  | rootless hs' hno =>
    rw [hs'.unique hs, hnames] at hno
    cases hno
  | rooted hs' _ hl =>
    obtain rfl := hs'.unique hs
    exact ⟨_, _, hl, h.separate⟩

/-- The file is accepted only if this frame holds its image. -/
theorem framed {head : Frame.Head} (hverify : Frame.verify (s.rootBytes b) s.named = .ok head) :
    ∃ image, Image.read (toList (Frame.payload (s.rootBytes b) head)) = .ok image ∧
      image.version = s.version ∧ Separate (s.rootOf head :: image.chunks) := by
  obtain ⟨root, image, hl, hsep⟩ := h.leads hs hnames
  obtain ⟨head', hverify', rfl, himage⟩ := hl.framed
  obtain rfl := Except.ok.inj (hverify.symm.trans hverify')
  exact ⟨image, himage, hl.version, hsep⟩

end Accepted

/-- Positions in the file, as far as a reader comes across them, are numbers of 64 bits. -/
structure Addressable (b : ByteArray) : Prop where
  root : ∀ s : Superblock, s.Chosen b → s.namesRoot = true → s.named.after * blockSize < UInt64.size
  chunks : ∀ records chunks, Describes b records chunks →
    ∀ c ∈ chunks, c.after * blockSize < UInt64.size

/-- The blocks that the file points to have numbers below `n`. -/
structure PointsBelow (b : ByteArray) (n : Nat) : Prop where
  root : ∀ s : Superblock, s.Chosen b → s.namesRoot = true → s.rootBlock.toNat < n
  chunks : ∀ records chunks, Describes b records chunks → ∀ c ∈ chunks, c.block.toNat < n

theorem PointsBelow.addressable {b : ByteArray} (h : PointsBelow b (2 ^ 51)) : Addressable b := by
  have hroom (c : Chunk) (hc : c.block.toNat < 2 ^ 51) : c.after * blockSize < UInt64.size := by
    have hlen := c.len.toNat_lt
    rw [Chunk.after, mul_blockSize, UInt64.size]
    omega
  exact ⟨fun s hs hnames => hroom s.named (h.root s hs hnames),
    fun records chunks hd c hc => hroom c (h.chunks records chunks hd c hc)⟩

namespace Store

open Engine Device

variable {δ : Type} [Device δ] {e : Engine δ} {b : ByteArray} {settings : Settings} {d : δ}

/-- Reading the records from a file that is not empty takes reads only. -/
theorem recover_reads {I : δ → Prop}
    (hread : ∀ {d pos len}, I d → Ends (Device.read pos len) d (fun _ t => I t) fun _ t => I t)
    (h : I e.device) (hne : e.size ≠ 0) :
    Ends recover e (fun _ e' => I e'.device) fun _ e' => I e'.device := by
  have hpass {α : Type} {x : Except Failure α} {e : Engine δ} (h : I e.device) :
      Ends (liftM x : Action (Engine δ) α) e (fun _ e' => I e'.device) fun _ e' => I e'.device := by
    cases x <;> exact ends_iff.2 h
  have hmark (c : Chunk) {e : Engine δ} (h : I e.device) :
      Ends (markChunk c) e (fun _ e' => I e'.device) fun _ e' => I e'.device := by
    unfold markChunk mark
    refine (hpass h).bind (fun _ e₁ h₁ => ?_) fun _ _ => id
    rw [ends_bind, ends_get, ends_bind]
    refine (hpass h₁).mono (fun _ e₂ h₂ => ?_) fun _ _ => id
    exact ends_modify.2 h₂
  have hengine (pos len : Nat) {e : Engine δ} (h : I e.device) :
      Ends (Engine.read pos len) e (fun _ e' => I e'.device) fun _ e' => I e'.device := by
    unfold Engine.read onDevice
    rw [ends_bind, ends_within]
    exact (hread h).mono (fun _ _ h => ends_bind.2 (ends_modify.2 (ends_pure.2 h))) fun _ _ => id
  have hload (c : Chunk) {e : Engine δ} (h : I e.device) :
      Ends (load c) e (fun _ e' => I e'.device) fun _ e' => I e'.device := by
    unfold load
    refine (hpass h).bind (fun _ e₁ h₁ => ?_) fun _ _ => id
    refine (hengine _ _ h₁).bind (fun _ e₂ h₂ => ?_) fun _ _ => id
    exact (hpass h₂).bind (fun _ _ h => ends_pure.2 h) fun _ _ => id
  unfold recover
  rw [ends_bind, ends_get, if_neg hne]
  split
  · exact ends_bind.2 (ends_refuse.2 h)
  refine (hengine _ _ h).bind (fun _ e₁ h₁ => ?_) fun _ _ => id
  refine (hpass h₁).bind (fun s e₂ h₂ => ?_) fun _ _ => id
  split
  · refine (hload _ h₂).bind (fun _ e₃ h₃ => ?_) fun _ _ => id
    refine (hpass h₃).bind (fun image e₄ h₄ => ?_) fun _ _ => id
    split
    · exact ends_bind.2 (ends_refuse.2 h₄)
    · refine (hmark _ h₄).bind (fun _ e₅ h₅ => ?_) fun _ _ => id
      refine (ends_forM (I := fun _ e => I e.device) h₅ fun c _ e h => hmark c h).bind
        (fun _ _ h => ends_pure.2 h) fun _ _ => id
  · exact ends_pure.2 h₂

variable [Legible δ]

/-- The file has been accepted with these records, and all that it refers to is in use. -/
def Taken (b : ByteArray) (records : Catalog) (e : Engine δ) : Prop :=
  ∃ chunks, Accepted b records chunks ∧
    ∀ n, n ∈ e.occupancy.used ↔ n < headerBlocks ∨ ∃ c ∈ chunks, c.Covers n

/-- The file has been refused, and rightly. -/
def Turned (b : ByteArray) (f : Failure) : Prop :=
  (∃ err, f = .error err) ∧ ∀ records chunks, ¬Accepted b records chunks

/-- Takes an image of the right version for the records, and their chunks into use. -/
def adopt (s : Superblock) (root : Chunk) (image : Image) : Action (Engine δ) Catalog := do
  if image.version ≠ s.version then .refuse (.corruption (.versionMismatch image.version s.version))
  markChunk root
  image.chunks.forM markChunk
  return .ofImage image root

/-- Reads the records where the superblock has them. -/
def readRoot (s : Superblock) : Action (Engine δ) Catalog := do
  let (head, buf) ← load s.named
  let image ← (Image.read (toList (Frame.payload buf head)) : Except Failure Image)
  adopt s (s.rootOf head) image

variable {s : Superblock} {head : Frame.Head} {image : Image} (hs : s.Chosen b)
  (hnames : s.namesRoot = true) (hb : Addressable b) (hlong : headerBytes ≤ b.size)

include hs hnames hb hlong

omit [Device δ] in
theorem adopt_legible (hwithin : s.named.after * blockSize ≤ b.size)
    (hverify : Frame.verify (s.rootBytes b) s.named = .ok head)
    (himage : Image.read (toList (Frame.payload (s.rootBytes b) head)) = .ok image)
    (ho : e.occupancy = .create headerBlocks blockSize) :
    Ends (adopt s (s.rootOf head) image) e (Taken b) fun f _ => Turned b f := by
  have hone (records : Catalog) (chunks : List Chunk) (ha : Accepted b records chunks) :
      image.version = s.version ∧ Separate (s.rootOf head :: image.chunks) := by
    obtain ⟨image', hok, hfacts⟩ := ha.framed hs hnames hverify
    obtain rfl := Except.ok.inj (himage.symm.trans hok)
    exact hfacts
  unfold adopt
  by_cases hversion : image.version = s.version
  · have hl : s.Leads b (s.rootOf head) image := ⟨hwithin, ⟨head, hverify, rfl, himage⟩, hversion⟩
    have hrooms : ∀ c ∈ s.rootOf head :: image.chunks, c.after * blockSize < UInt64.size :=
      hb.chunks _ _ (.rooted hs hnames hl)
    have hall : Ends (markChunk (s.rootOf head) >>= fun _ => image.chunks.forM markChunk) e _ _ :=
      markAll_legible (by rw [ho]; rfl) hrooms
    have hno : ¬Separate (s.rootOf head :: image.chunks) →
        ∀ records chunks, ¬Accepted b records chunks := fun hno records chunks ha =>
      hno (hone records chunks ha).2
    rw [ho, admits_create, ends_bind] at hall
    rw [if_neg (fun hne => hne hversion), ends_bind]
    refine hall.mono (fun _ e₁ h₁ => ?_) fun _ _ hf => ⟨hf.1, hno hf.2⟩
    refine h₁.bind (fun _ e₂ h₂ => ends_pure.2 ?_) fun _ _ hf => ⟨hf.1, hno hf.2⟩
    refine ⟨_, ⟨hlong, .rooted hs hnames hl, h₂.1⟩, fun n => ?_⟩
    rw [h₂.2, mem_used_create]
  · rw [if_pos hversion, ends_bind]
    exact ends_refuse.2 ⟨⟨_, rfl⟩, fun records chunks ha => hversion (hone records chunks ha).1⟩

theorem readRoot_legible (h : Legible.Has e.device b)
    (ho : e.occupancy = .create headerBlocks blockSize) :
    Ends (readRoot s) e (Taken b) fun f _ => Turned b f := by
  have hpos : 0 < s.named.len.toNat := UInt32.lt_iff_toNat_lt.1 (of_decide_eq_true hnames).2
  unfold readRoot
  refine (load_legible h hpos (hb.root s hs hnames)).bind ?_ ?_
  · rintro ⟨head, buf⟩ e₁ ⟨⟨hwithin, rfl, hverify⟩, -, ho₁⟩
    dsimp only at hverify ⊢
    rw [ends_bind]
    rcases himage : Image.read (toList (Frame.payload (s.rootBytes b) head)) with cut | image
    · have hcut := congrArg (Except.mapError Failure.error) himage
      refine ends_of_faultless (.of_eq_error hcut) (fun a ha => ?_) fun _ _ => ⟨⟨_, rfl⟩, ?_⟩
      · cases hcut.symm.trans ha
      · intro records chunks ha
        obtain ⟨image, hok, -⟩ := ha.framed hs hnames hverify
        rw [himage] at hok
        cases hok
    · refine (ends_except (congrArg (Except.mapError Failure.error) himage)).2 ?_
      exact adopt_legible hs hnames hb hlong hwithin hverify himage (ho₁.trans ho)
  · rintro f _ ⟨herror, hno⟩
    refine ⟨herror, fun records chunks ha => ?_⟩
    obtain ⟨root, image, hl, -⟩ := ha.leads hs hnames
    obtain ⟨head, hverify, -⟩ := hl.framed
    exact hno hl.within head hverify

omit hs hnames hb hlong

/-- A file that is not empty is read exactly if it is accepted. -/
theorem recover_legible (h : Legible.Has e.device b)
    (ho : e.occupancy = .create headerBlocks blockSize) (hne : b.size ≠ 0) (hb : Addressable b) :
    Ends recover e (Taken b) fun f _ => Turned b f := by
  have hsize : e.size = b.size := Legible.size_eq h
  have hlimit : headerBytes < Bytes.limit := by decide
  have hword : 0 + headerBytes < UInt64.size := by decide
  have hpos : 0 < headerBytes := by decide
  unfold recover
  rw [ends_bind, ends_get, hsize, if_neg hne]
  by_cases hshort : b.size < headerBytes
  · rw [if_pos hshort, ends_bind]
    exact ends_refuse.2 ⟨⟨_, rfl⟩, fun _ _ ha => Nat.not_lt.2 ha.headerBytes_le hshort⟩
  rw [if_neg hshort]
  have hlong : headerBytes ≤ b.size := Nat.le_of_not_lt hshort
  refine (read_legible h hpos hlimit hword).bind ?_ fun f _ hf => absurd hf.2 (by omega)
  rintro _ e₁ ⟨⟨rfl, -⟩, h₁, ho₁⟩
  rw [ends_bind]
  rcases hread : Superblock.read (slice b 0 headerBytes) with damage | s
  · refine ends_iff.2 ⟨⟨_, rfl⟩, fun _ _ ha => ?_⟩
    obtain ⟨s, hs⟩ := ha.describes.exists_chosen
    rw [Superblock.read_eq_ok.2 hs] at hread
    cases hread
  have hs := Superblock.read_eq_ok.1 hread
  refine (ends_except rfl).2 ?_
  cases hnames : s.namesRoot with
  | false =>
    refine ends_pure.2 ⟨[], ⟨hlong, .rootless hs hnames, ⟨List.forall_mem_nil _, .nil⟩⟩, fun n => ?_⟩
    rw [ho₁, ho, mem_used_create]
    simp
  | true =>
    rw [if_pos rfl]
    exact readRoot_legible hs hnames hb hlong h₁ (ho₁.trans ho)

/-- The device that an attempt to open a store leaves. -/
def leftBy : Except (Failure × δ) (Store δ) → δ
  | .ok v => v.engine.device
  | .error (_, d) => d

omit [Legible δ] in
/-- What every read keeps holds of the device after an attempt to open it. -/
theorem openOn_reads {I : δ → Prop}
    (hread : ∀ {d pos len}, I d → Ends (Device.read pos len) d (fun _ t => I t) fun _ t => I t)
    (h : I d) (hne : Device.size d ≠ 0) (settings : Settings) : I (leftBy (openOn settings d)) := by
  unfold openOn
  split
  · exact h
  · split
    · exact h
    · next engine hcreate =>
      have hd : engine.device = d := by
        unfold Engine.create at hcreate
        cases hpool : BufferPool.create settings.poolSize <;> rw [hpool] at hcreate <;> cases hcreate
        rfl
      have hends := recover_reads (e := engine) hread (hd.symm ▸ h) (by rwa [Engine.size, hd])
      split
      · next records e hrun => exact hends.ok _ _ hrun
      · next f e hrun => exact hends.error _ _ hrun

end Store

namespace Edition

variable {E : Edition} {b : ByteArray} {contents : Contents}

/-- The chunks of a commit, the root first. -/
theorem held_perm (E : Edition) : E.held.Perm (E.root.toList ++ E.chunks) :=
  List.perm_append_comm

/-- What a commit leaves on the file is accepted, and stands for the records of the commit. -/
theorem Read.accepted (h : E.Read b contents) (hb : b.size < UInt64.size) :
    Accepted b E.catalog (E.root.toList ++ E.chunks) := by
  have hs : E.superblock.Chosen b := Superblock.read_eq_ok.1 h.superblock
  have hroom (c : Chunk) (hc : c ∈ E.held) : c.after * blockSize < UInt64.size :=
    Nat.lt_of_le_of_lt (h.backed.after_le hc) hb
  refine ⟨h.headerBytes_le, ?_, ⟨fun c hc b hb => ?_, ?_⟩⟩
  · cases hr : E.root with
    | none =>
      have hblank := h.sound.blank hr
      subst hblank
      exact .rootless hs rfl
    | some root =>
      have hmem : root ∈ E.held := mem_held.2 (.inr hr)
      have hroot := h.backed.root root hr
      have hsb : E.superblock = .naming E.version root := by rw [Edition.superblock, hr]
      rw [hsb] at hs
      have hbytes : (Superblock.naming E.version root).rootBytes b = Frame.framed root E.imageBytes := by
        rw [← hroot.holds.2, Frame.size_framed hroot.fits]
        rfl
      have hleads : (Superblock.naming E.version root).Leads b root E.image := by
        refine ⟨hroot.after_le, ⟨.ofChunk root E.imageBytes.size.toUInt32, ?_, ?_, ?_⟩, rfl⟩
        · rw [hbytes]
          exact Frame.verify_framed hroot.fits rfl rfl rfl
        · exact (h.sound.root_eq hr hroot.fits).symm
        · rw [hbytes, Frame.payload_framed hroot.fits]
          exact read_image h.sound.plain hroot.fits.2
      rw [catalog, hr]
      exact .rooted hs (namesRoot_naming E.version (hroom root hmem) (h.sound.len_pos root hmem))
        hleads
  · exact Nat.le_trans (h.sound.header_le c (E.held_perm.mem_iff.2 hc)) hb.1
  · exact ((E.held_perm.pairwise_iff Chunk.Apart.symm).1 h.sound.apart).imp
      fun ha _ => ha.not_covers

/-- A reader of the file comes across the chunks of the commit only. -/
theorem Read.named (h : E.Read b contents) {s : Superblock} (hs : s.Chosen b)
    (hnames : s.namesRoot = true) : ∃ root ∈ E.held, root.block = s.rootBlock ∧ root.len = s.rootLen := by
  obtain rfl := hs.unique (Superblock.read_eq_ok.1 h.superblock)
  cases hr : E.root with
  | none =>
    rw [Edition.superblock, hr] at hnames
    cases hnames
  | some root =>
    rw [Edition.superblock, hr]
    exact ⟨root, mem_held.2 (.inr hr), rfl, rfl⟩

theorem Read.described (h : E.Read b contents) (hb : b.size < UInt64.size) {records : Catalog}
    {chunks : List Chunk} (hd : Describes b records chunks) :
    records = E.catalog ∧ chunks = E.root.toList ++ E.chunks := hd.unique (h.accepted hb).describes

theorem Read.pointsBelow {n : Nat} (h : E.Read b contents) (hb : b.size < UInt64.size)
    (hn : ∀ c ∈ E.held, c.block.toNat < n) : PointsBelow b n := by
  refine ⟨fun s hs hnames => ?_, fun records chunks hd c hc => ?_⟩
  · obtain ⟨root, hroot, hblock, -⟩ := h.named hs hnames
    exact hblock ▸ hn root hroot
  · obtain ⟨-, rfl⟩ := h.described hb hd
    exact hn c (E.held_perm.mem_iff.2 hc)

theorem Read.addressable (h : E.Read b contents) (hb : b.size < UInt64.size) : Addressable b := by
  have hroom (c : Chunk) (hc : c ∈ E.held) : c.after * blockSize < UInt64.size :=
    Nat.lt_of_le_of_lt (h.backed.after_le hc) hb
  refine ⟨fun s hs hnames => ?_, fun records chunks hd c hc => ?_⟩
  · obtain ⟨root, hroot, hblock, hlen⟩ := h.named hs hnames
    have hword := hroom root hroot
    rwa [Chunk.after, hblock, hlen] at hword
  · obtain ⟨-, rfl⟩ := h.described hb hd
    exact hroom c (E.held_perm.mem_iff.2 hc)

end Edition

namespace Store

open BlockStore.Action Engine Device

variable {δ : Type} [Device δ] [Legible δ] {d : δ} {b : ByteArray} {settings : Settings}

/-- What comes of opening a file that is not empty. -/
structure Judged (b : ByteArray) (r : Except (Failure × δ) (Store δ)) : Prop where
  of_ok : ∀ {w}, r = .ok w → ∃ chunks, Accepted b w.records chunks ∧
    ∀ n, n ∈ w.engine.occupancy.used ↔ n < headerBlocks ∨ ∃ c ∈ chunks, c.Covers n
  of_error : ∀ {f d}, r = .error (f, d) →
    (∃ e, f = .error e) ∧ ∀ records chunks, ¬Accepted b records chunks

theorem openOn_legible (hs : settings.Usable) (h : Legible.Has d b) (hne : b.size ≠ 0)
    (hb : Addressable b) : Judged b (openOn settings d) := by
  obtain ⟨e, rfl, ho, -, hopen⟩ := openOn_eq (d := d) hs
  have hends := recover_legible h ho hne hb
  rw [hopen]
  rcases hrun : recover e with ⟨f | records, e'⟩
  · exact ⟨nofun, fun hf => by cases hf; exact hends.error _ _ hrun⟩
  · exact ⟨fun hw => by cases hw; exact hends.ok _ _ hrun, nofun⟩

/-- Opening a file that is not empty reads it and nothing else. It succeeds exactly if the file is
accepted, and finds the blocks of the header and of the chunks in use and no others. -/
theorem openOn_succeeds_iff (h : Legible.Has d b) (hne : b.size ≠ 0) (hb : PointsBelow b (2 ^ 51)) :
    (∀ (ν : Type) (t : Traced δ ν), t.inner = d → t.Reads (leftBy (openOn settings t))) ∧
    ((∃ w, openOn settings d = .ok w) ↔
      settings.Usable ∧ ∃ records chunks, Accepted b records chunks) ∧
    ∀ w, openOn settings d = .ok w → ∃ chunks, Accepted b w.records chunks ∧
      ∀ n, n ∈ w.engine.occupancy.used ↔ n < headerBlocks ∨ ∃ c ∈ chunks, c.Covers n := by
  refine ⟨fun ν t ht => ?_, ⟨?_, ?_⟩, ?_⟩
  · refine openOn_reads Traced.read_reads (Traced.Reads.refl t) ?_ settings
    change Device.size t.inner ≠ 0
    rwa [ht, Legible.size_eq h]
  · rintro ⟨w, hw⟩
    have hs := usable_of_openOn hw
    obtain ⟨chunks, ha, -⟩ := (openOn_legible hs h hne hb.addressable).of_ok hw
    exact ⟨hs, w.records, chunks, ha⟩
  · rintro ⟨hs, records, chunks, ha⟩
    rcases hopen : openOn settings d with ⟨f, d'⟩ | w
    · exact absurd ha (((openOn_legible hs h hne hb.addressable).of_error hopen).2 records chunks)
    · exact ⟨w, rfl⟩
  · intro w hw
    exact (openOn_legible (usable_of_openOn hw) h hne hb.addressable).of_ok hw

end Store

namespace Edition

/-- Whoever opens a file with a commit on it finds the records of the commit, and the blocks of its
chunks in use. -/
theorem Read.opens {δ : Type} [Device δ] [Device.Legible δ] {d : δ} {settings : Settings}
    {E : Edition} {b : ByteArray} {contents : Contents} (h : E.Read b contents)
    (hb : b.size < UInt64.size) (hd : Device.Legible.Has d b) (hs : settings.Usable) :
    ∃ w, Store.openOn settings d = .ok w ∧ w.records = E.catalog ∧
      ∀ n, n ∈ w.engine.occupancy.used ↔ n < headerBlocks ∨ ∃ c ∈ E.held, c.Covers n := by
  have hne : b.size ≠ 0 := by
    have := h.headerBytes_le
    have : 0 < headerBytes := by decide
    omega
  have hjudged := Store.openOn_legible hs hd hne (h.addressable hb)
  rcases hopen : Store.openOn settings d with ⟨f, d'⟩ | w
  · exact absurd (h.accepted hb) ((hjudged.of_error hopen).2 _ _)
  · obtain ⟨chunks, ha, hused⟩ := hjudged.of_ok hopen
    obtain ⟨hrecords, rfl⟩ := h.described hb ha.describes
    refine ⟨w, rfl, hrecords, fun n => ?_⟩
    rw [hused]
    simp only [E.held_perm.mem_iff]

/-- The root of the first commit of a store that holds nothing. -/
def firstRoot : Chunk := { id := 1, block := 2, len := 1, version := 1, size := 20, liveSize := 20 }

def first : Edition := ⟨1, some firstRoot, 2, []⟩

/-- A file with that commit on it. -/
def firstBytes : ByteArray :=
  Change.apply (Change.apply .empty (.write 0 first.superblock.toBytes))
    (.write (firstRoot.first * blockSize) (Frame.framed firstRoot first.imageBytes))

theorem first_read : first.Read firstBytes fun _ => none := by
  have hheld : ∀ c ∈ first.held, c = firstRoot := fun c hc => List.mem_singleton.1 hc
  have hnames : first.superblock.Names firstBytes := by
    have hcalm : ∀ ch ∈ [Change.write (firstRoot.first * blockSize)
        (Frame.framed firstRoot first.imageBytes)], ch.Avoids 0 headerBytes := fun ch hch => by
      rw [List.mem_singleton.1 hch]
      exact .inr (Nat.le_refl _)
    have h := (Superblock.Names.of_write first.superblock .empty).foldl hcalm
    rwa [List.foldl_cons, List.foldl_nil] at h
  refine ⟨⟨nofun, ?_, nofun, .nil, List.nodup_singleton _, fun c hc => ?_,
    List.pairwise_singleton .., fun c hc => ?_, fun c hc => ?_⟩,
    ⟨fun root hr => ?_, nofun, nofun⟩, hnames.headerBytes_le, hnames.read_slice⟩
  · rintro _ ⟨⟩
    rfl
  · rw [hheld c hc]
    decide
  · rw [hheld c hc]
    decide
  · rw [hheld c hc]
    decide
  · obtain rfl := Option.some.inj hr
    exact .of_write _ ⟨by decide, by decide⟩

theorem size_firstBytes : firstBytes.size = 12288 := by
  rw [firstBytes, Change.size_apply_write, Change.size_apply_write,
    Superblock.size_toBytes, Frame.size_framed ⟨by decide, by decide⟩]
  rfl

theorem firstBytes_size_lt : firstBytes.size < UInt64.size := by
  rw [size_firstBytes]
  decide

theorem first_accepted : Accepted firstBytes first.catalog first.held :=
  first_read.accepted firstBytes_size_lt

theorem first_pointsBelow : PointsBelow firstBytes (2 ^ 51) :=
  first_read.pointsBelow firstBytes_size_lt fun c hc => by
    rw [List.mem_singleton.1 hc]
    decide

end Edition

namespace Store

open BlockStore.Action Engine Device

variable {settings : Settings}

/-- A file with a root opens read-only. -/
theorem openOn_succeeds_first : ∃ w : Store Memory,
    openOn { readOnly := true } { bytes := Edition.firstBytes, sealed := true } = .ok w ∧
    ∀ n, n ∈ w.engine.occupancy.used ↔ n < 3 := by
  let m : Memory := { bytes := Edition.firstBytes, sealed := true }
  have hne : m.bytes.size ≠ 0 := by
    rw [show m.bytes.size = 12288 from Edition.size_firstBytes]
    decide
  have hs : Settings.Usable { readOnly := true } := ⟨rfl, by decide⟩
  have haccepted := Edition.first_accepted
  obtain ⟨-, hiff, hused⟩ := openOn_succeeds_iff (d := m) rfl hne Edition.first_pointsBelow
  obtain ⟨w, hw⟩ := hiff.2 ⟨hs, _, _, haccepted⟩
  obtain ⟨chunks, ha, hw'⟩ := hused w hw
  obtain ⟨-, rfl⟩ := haccepted.describes.unique ha.describes
  refine ⟨w, hw, fun n => ?_⟩
  rw [hw']
  have hfirst : Edition.firstRoot.first = 2 := rfl
  have hafter : Edition.firstRoot.after = 3 := rfl
  simp only [Edition.held, Edition.first, Option.toList_some, List.nil_append, List.mem_singleton,
    exists_eq_left, Chunk.Covers, headerBlocks, hfirst, hafter]
  omega

/-- The check of the settings lets a pool pass that no memory can hold, and with it the same file does
not open. -/
theorem openOn_pool_excess : Settings.check { poolSize := 2 ^ 62 } = .ok () ∧
    Edition.firstBytes.size ≠ 0 ∧ PointsBelow Edition.firstBytes (2 ^ 51) ∧
    (∃ records chunks, Accepted Edition.firstBytes records chunks) ∧
    ¬∃ w : Store Memory, openOn { poolSize := 2 ^ 62 } { bytes := Edition.firstBytes } = .ok w := by
  refine ⟨rfl, ?_, Edition.first_pointsBelow, ⟨_, _, Edition.first_accepted⟩, ?_⟩
  · rw [Edition.size_firstBytes]
    decide
  · rintro ⟨w, hw⟩
    have hpool := (usable_of_openOn hw).2
    revert hpool
    decide

/-- Of an empty file in memory a store is made, or the file is sealed. -/
theorem recover_empty {e : Engine Memory} (h : e.device.bytes.size = 0) :
    Ends recover e (fun _ _ => True) fun f _ => ∃ e, f = .error e := by
  have hsize : e.size = 0 := h
  unfold recover
  rw [ends_bind, ends_get, if_pos hsize]
  cases hsealed : e.device.sealed with
  | true =>
    have hreadOnly : e.readOnly = true := hsealed
    rw [hreadOnly, if_pos rfl, ends_bind]
    exact ends_refuse.2 ⟨_, rfl⟩
  | false =>
    have hshows : e.Shows ⟨e.device.bytes, []⟩ :=
      ⟨hsealed, rfl, Nat.lt_of_le_of_lt (Nat.le_of_eq h) (by decide)⟩
    rw [readOnly_eq hshows, if_neg Bool.false_ne_true]
    refine (Engine.write_ends hshows (Superblock.size_toBytes_pos _)
      (by rw [Superblock.size_toBytes]; decide)).bind
      (fun _ e₁ k₁ => ?_) fun _ _ hf => hf.1.elim
    exact (Engine.sync_ends k₁.1).bind (fun _ _ _ => ends_pure.2 trivial) fun _ _ hf => hf.1.elim

/-- A file in memory opens as a store or is refused with an error, as long as the positions in it and
the buffers of the pool can be addressed. -/
theorem openOn_faultless {m : Memory} (hb : Addressable m.bytes)
    (hpool : max settings.poolSize 1 * BufferPool.placeSize < Bytes.limit) :
    ∀ f d, openOn settings m = .error (f, d) → ∃ e, f = .error e := by
  intro f d hopen
  cases hcheck : settings.check with
  | error e =>
    rw [openOn, hcheck] at hopen
    cases hopen
    exact ⟨e, rfl⟩
  | ok =>
    have hs : settings.Usable := ⟨hcheck, hpool⟩
    by_cases hne : m.bytes.size = 0
    · obtain ⟨e, rfl, -, -, heq⟩ := openOn_eq (d := m) hs
      rw [heq] at hopen
      have hends := recover_empty (e := e) hne
      rcases hrun : recover e with ⟨f | records, e'⟩ <;> rw [hrun] at hopen <;> cases hopen
      exact hends.error _ _ hrun
    · exact ((openOn_legible hs rfl hne hb).of_error hopen).1

/-- A superblock that names a root behind the end of the file. -/
theorem openOn_faultless_cut : ∃ e d, openOn {} ({
      bytes := Change.apply .empty (.write 0 Edition.first.superblock.toBytes) } : Memory) =
    .error (.error e, d) := by
  have hs := (Superblock.Names.of_write Edition.first.superblock .empty).read_slice
  have hchosen := Superblock.read_eq_ok.1 hs
  have hsize : (Change.apply .empty (.write 0 Edition.first.superblock.toBytes)).size = 8192 := by
    rw [Change.size_apply_write, Superblock.size_toBytes]
    rfl
  have hno (records : Catalog) (chunks : List Chunk) :
      ¬Describes (Change.apply .empty (.write 0 Edition.first.superblock.toBytes)) records chunks := by
    rintro (⟨ht, hnone⟩ | ⟨ht, -, hleads⟩)
    · obtain rfl := ht.unique hchosen
      cases hnone
    · obtain rfl := ht.unique hchosen
      have hwithin := hleads.within
      rw [hsize] at hwithin
      exact absurd hwithin (by decide)
  have hb : Addressable (Change.apply .empty (.write 0 Edition.first.superblock.toBytes)) := by
    refine ⟨fun t ht _ => ?_, fun records chunks hd => absurd hd (hno records chunks)⟩
    obtain rfl := ht.unique hchosen
    decide
  have hpool : max ({} : Settings).poolSize 1 * BufferPool.placeSize < Bytes.limit := by decide
  let m : Memory := { bytes := Change.apply .empty (.write 0 Edition.first.superblock.toBytes) }
  rcases hopen : openOn {} m with ⟨f, d⟩ | w
  · obtain ⟨e, rfl⟩ := openOn_faultless (m := m) hb hpool f d hopen
    exact ⟨e, d, rfl⟩
  · obtain ⟨chunks, ha, -⟩ := (openOn_legible (d := m) ⟨rfl, hpool⟩ rfl
      (by rw [hsize]; decide) hb).of_ok hopen
    exact absurd ha.describes (hno _ _)

end Store

end BlockStore
