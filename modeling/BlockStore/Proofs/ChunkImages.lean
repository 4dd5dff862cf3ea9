import BlockStore.Proofs.Forecast

namespace BlockStore

open BlockStore.Action Bytes Device Engine

/-- The blocks of `c` hold its header, the payload `p`, zeroes and its footer, and `p` needs that many
blocks. -/
structure Spotless (b : ByteArray) (c : Chunk) (p : ByteArray) : Prop where
  within : c.after * blockSize ≤ b.size
  size_lt : p.size < UInt32.size
  bytes : ∃ padding, toList (slice b (c.first * blockSize) c.byteLen) =
    (Frame.Head.mk c.id c.len c.block c.version c.next p.size.toUInt32).encode ++ toList p ++
      List.replicate padding 0 ++ (Frame.Foot.mk c.id c.len c.block c.version).encode
  least : IsLeast {n | Chunk.headSize + p.size + Chunk.footSize ≤ n * blockSize} c.len.toNat

theorem Carries.spotless {b p : ByteArray} {c : Chunk} (h : Carries b c p)
    (hlen : c.len.toNat = Chunk.blocksFor p.size) : Spotless b c p where
  within := h.after_le
  size_lt := h.fits.2
  bytes := by
    have hslice := h.holds.2
    rw [Frame.size_framed h.fits] at hslice
    refine ⟨c.byteLen - Chunk.headSize - Chunk.footSize - p.size, ?_⟩
    rw [hslice, Frame.framed, Frame.toList_wrap, toList_grow]
    simp only [List.append_assoc]
    rfl
  least := hlen ▸ Chunk.isLeast_blocksFor p.size

namespace Store

variable {δ : Type} [Device δ] [Faithful δ] {v w : Store δ} {m : Medium} {E : Edition}
  {live committed : Contents} {c : Chunk} {p : ByteArray}

/-- What is read of the chunk is `p`, and the file has for it just what that takes. -/
def Presents (v : Store δ) (c : Chunk) (p : ByteArray) : Prop :=
  (∃ w, read c.id v = (.ok p, w)) ∧ Spotless (Faithful.bytes v.engine.device) c p

theorem Consistent.presents (h : Consistent v m E live committed bare) (hc : c ∈ v.records.chunks)
    (hp : Carries m.content c p) (hlen : c.len.toNat = Chunk.blocksFor p.size) : v.Presents c p := by
  have hfind : v.records.find? c.id = some c :=
    (Catalog.find?_eq_some h.ids_nodup).2 ⟨hc, rfl⟩
  obtain ⟨_, w, hrun, rfl, -⟩ := (read_ends_of_carries h.shows hfind hp).total
  refine ⟨⟨w, hrun⟩, ?_⟩
  rw [Faithful.bytes_eq h.shows]
  exact hp.spotless hlen

/-- The root holds an image of the records, as they were at the last commit. -/
structure Depicts (v : Store δ) (committed : Contents) (image : Image) : Prop where
  version : image.version = v.records.version
  current : v.records.dirty = false →
    image.nextId = v.records.nextId ∧ image.chunks = v.records.data.chunks
  chunks : ∀ d ∈ image.chunks, ∃ p, committed d.id = some p ∧
    Spotless (Faithful.bytes v.engine.device) d p
  named : ∀ id p, committed id = some p → ∃ d ∈ image.chunks, d.id = id

namespace Snug

variable (h : Snug v m E live committed)

include h

theorem presents_data (hc : c ∈ v.records.data.chunks) :
    ∃ p, live c.id = some p ∧ v.Presents c p := by
  obtain ⟨p, hp, hcarries⟩ := h.stocks.carries c hc
  exact ⟨p, hp, h.toConsistent.presents (Catalog.mem_chunks.2 (.inl hc)) hcarries
    (h.fitted c hc p hp)⟩

theorem depicts : v.Depicts committed E.image := by
  have hlast : Stocks m.content E.chunks committed := h.settled.read_content.backed.stocks
  refine ⟨h.version.symm, fun hclean => ?_, fun d hd => ?_, hlast.named⟩
  · obtain ⟨hdata, hnext, -⟩ := h.clean hclean
    exact ⟨hnext, hdata⟩
  · obtain ⟨p, hp, hcarries⟩ := hlast.carries d hd
    refine ⟨p, hp, ?_⟩
    rw [Faithful.bytes_eq h.shows]
    exact hcarries.spotless (h.last d hd p hp)

theorem presents_root (hc : v.records.root = some c) : v.Presents c E.imageBytes := by
  have hroot : E.root = some c := h.root.symm.trans hc
  have hcarries : Carries m.content c E.imageBytes := h.settled.read_content.backed.root c hroot
  refine h.toConsistent.presents (Catalog.mem_chunks.2 (.inr hc)) hcarries ?_
  -- The record of the root tells the size of the image.
  have hsize : c.size = E.imageBytes.size.toUInt64 :=
    congrArg Chunk.size (h.settled.sound.root c hroot)
  have hlt : E.imageBytes.size < UInt64.size := Nat.lt_trans hcarries.fits.2 (by decide)
  rw [h.least c hc, hsize, UInt64.toNat_ofNat_of_lt' hlt]

end Snug

end Store

namespace Session

open Store

/-- What a store has written for a chunk is its own: the payload in its frame, in as many blocks as
that needs, and zeroes. The payloads are those that the user of the store knows of, and that of the
root is an image of the records. A copy differs from the chunk in header and footer, and nothing else
in the file changes. -/
theorem images_spotless {δ : Type} [Device δ] [Faithful δ] : (∀ s : Session δ, Served s →
      (∀ c ∈ s.store.records.data.chunks, ∃ p, s.ledger.live c.id = some p ∧ s.store.Presents c p) ∧
      (∀ id p, s.ledger.live id = some p → ∃ c ∈ s.store.records.data.chunks, c.id = id) ∧
      ∀ root, s.store.records.root = some root → ∃ image : Image,
        s.store.Depicts s.ledger.committed image ∧ s.store.Presents root (ofList image.toBytes)) ∧
    ∀ (e e' : Engine δ) (m : Medium) (c moved : Chunk) (r : Reserved), e.Shows m →
      e.occupancy.blockSize = blockSize → c.after * blockSize ≤ m.content.size →
      copy c r e = (.ok moved, e') →
      ∃ image, image.size = c.byteLen ∧
        Frame.middle image = Frame.middle (slice m.content (c.first * blockSize) c.byteLen) ∧
        Faithful.bytes e'.device =
          Change.apply m.content (.write (moved.first * blockSize) image) := by
  refine ⟨fun s hs => ?_, fun e e' m c moved r h hb hc hcopy => ?_⟩
  · obtain ⟨m, E, h⟩ := hs.snug
    exact ⟨fun c hc => h.presents_data hc, h.stocks.named,
      fun root hroot => ⟨E.image, h.depicts, h.presents_root hroot⟩⟩
  · obtain ⟨start, head, -, hfirst, hverify, -, htakes⟩ := (copy_wraps h hb hc).ok _ _ hcopy
    obtain ⟨foot, hpasses⟩ := Frame.passes_of_verify hverify
    have hfits := hpasses.fits
    have hend : c.first * blockSize + c.byteLen ≤ m.content.size := by
      rwa [Chunk.byteLen, ← Nat.add_mul, ← Chunk.after_eq]
    have hsize := size_slice hend
    refine ⟨Frame.wrap moved head.payload _, ?_, Frame.middle_wrap .., ?_⟩
    · rw [Frame.size_wrap, Frame.middle, ByteArray.size_extract]
      omega
    · rw [Faithful.bytes_eq htakes.1, Medium.content_change, hfirst]

/-- So it is in memory, for a chunk with one byte behind a gap, and for its copy into that gap. -/
theorem images_spotless_written :
    ∃ (s : Session Memory) (c root moved : Chunk) (e' : Engine Memory),
    c ∈ s.store.records.data.chunks ∧ s.ledger.live c.id = some (ofList [7]) ∧
    s.store.Presents c (ofList [7]) ∧ s.store.records.root = some root ∧
    (∃ image : Image, s.store.Depicts s.ledger.committed image ∧
      s.store.Presents root (ofList image.toBytes)) ∧
    copy c .nothing s.store.engine = (.ok moved, e') ∧
    ∃ image, image.size = c.byteLen ∧ Frame.middle image = Frame.middle
        (slice s.store.engine.device.bytes (c.first * blockSize) c.byteLen) ∧
      e'.device.bytes =
        Change.apply s.store.engine.device.bytes (.write (moved.first * blockSize) image) := by
  have hs : Settings.Usable {} := ⟨rfl, by decide⟩
  have hforecast : ∃ f ∈ Forecast.run limit
      [.zeros 10, .write (ofList [7]) 1 rfl, .remove 1, .commit] ⟨.blank {}, {}⟩,
      (∃ c ∈ f.sketch.records.data.chunks, f.ledger.live c.id = some (ofList [7]) ∧
        f.sketch.outline.occupancy.preview c.len.toNat .nothing = .ok 2 ∧
        (f.sketch.outline.occupancy.ceiling .nothing + c.len.toNat) * blockSize < limit) ∧
      ∃ root ∈ f.sketch.records.root, root.len = 1 := by decide +kernel
  obtain ⟨s, -, hserved, ⟨c, hc, hlive, hpreview, hceiling⟩, root, hroot, -⟩ :=
    exists_in_memory hs hforecast
  obtain ⟨m, E, hsnug⟩ := hserved.snug
  have hbytes : s.store.engine.device.bytes = m.content := Faithful.bytes_eq hsnug.shows
  obtain ⟨p, hp, hcarries⟩ := hsnug.stocks.carries c hc
  have hmem : c ∈ s.store.records.held :=
    List.mem_append_left _ (Catalog.mem_chunks.2 (.inl hc))
  obtain ⟨moved, e', hcopy, -⟩ := ((copy_ends hsnug.shows hsnug.layout.blockSize hcarries.holds
    hcarries.fits (hsnug.layout.len_pos c hmem) hceiling hpreview nofun).mono (fun _ _ h => h)
    fun _ _ hf => hf.1).total
  have himages := images_spotless (δ := Memory)
  obtain ⟨hdata, -, hroots⟩ := himages.1 s hserved
  obtain ⟨q, hq, hpresents⟩ := hdata c hc
  obtain rfl := Option.some.inj (hlive.symm.trans hq)
  obtain ⟨image, hsize, hmiddle, hwritten⟩ := himages.2 _ e' m c moved .nothing hsnug.shows
    hsnug.layout.blockSize hcarries.after_le hcopy
  exact ⟨s, c, root, moved, e', hc, hlive, hpresents, hroot, hroots root hroot, hcopy, image, hsize,
    by rw [hbytes]; exact hmiddle, by rw [hbytes]; exact hwritten⟩

end Session

end BlockStore
