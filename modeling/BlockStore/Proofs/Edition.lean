import BlockStore.Catalog
import BlockStore.Proofs.Layout
import BlockStore.Proofs.Records

namespace BlockStore

open Bytes

/-- Payloads by the id of their chunk. -/
abbrev Contents := UInt32 → Option ByteArray

/-- The blocks of `c` hold the payload `p` in its frame. -/
structure Carries (b : ByteArray) (c : Chunk) (p : ByteArray) : Prop where
  fits : Frame.Fits c p
  holds : Holds b (c.first * blockSize) (Frame.framed c p)

/-- The chunks hold exactly these payloads. -/
structure Stocks (b : ByteArray) (chunks : List Chunk) (contents : Contents) : Prop where
  carries : ∀ c ∈ chunks, ∃ p, contents c.id = some p ∧ Carries b c p
  named : ∀ id p, contents id = some p → ∃ c ∈ chunks, c.id = id

/-- The change keeps off the blocks of the chunk. -/
def Change.Spares (ch : Change) (c : Chunk) : Prop := ch.Avoids (c.first * blockSize) c.byteLen

namespace Carries

variable {b p : ByteArray} {c : Chunk} {ch : Change}

theorem after_le (h : Carries b c p) : c.after * blockSize ≤ b.size := by
  have hle := h.holds.1
  rw [Frame.size_framed h.fits, Chunk.byteLen, ← Nat.add_mul] at hle
  exact hle

theorem change (h : Carries b c p) (hc : ch.Spares c) : Carries (ch.apply b) c p := by
  refine ⟨h.fits, Change.Avoids.holds ?_ h.holds⟩
  rw [Frame.size_framed h.fits]
  exact hc

theorem foldl {chs : List Change} (h : Carries b c p) (hc : ∀ ch ∈ chs, ch.Spares c) :
    Carries (chs.foldl Change.apply b) c p := by
  refine ⟨h.fits, Change.holds_foldl ?_ h.holds⟩
  rw [Frame.size_framed h.fits]
  exact hc

theorem of_write (b : ByteArray) (h : Frame.Fits c p) :
    Carries (Change.apply b (.write (c.first * blockSize) (Frame.framed c p))) c p :=
  ⟨h, Change.holds_write ..⟩

end Carries

namespace Stocks

variable {b p : ByteArray} {cs ds : List Chunk} {c : Chunk} {ch : Change} {contents : Contents}

theorem change (h : Stocks b cs contents) (hc : ∀ c ∈ cs, ch.Spares c) :
    Stocks (ch.apply b) cs contents := by
  refine ⟨fun c hm => ?_, h.named⟩
  obtain ⟨p, hp, hcarries⟩ := h.carries c hm
  exact ⟨p, hp, hcarries.change (hc c hm)⟩

theorem foldl {chs : List Change} (h : Stocks b cs contents)
    (hc : ∀ c ∈ cs, ∀ ch ∈ chs, ch.Spares c) : Stocks (chs.foldl Change.apply b) cs contents := by
  refine ⟨fun c hm => ?_, h.named⟩
  obtain ⟨p, hp, hcarries⟩ := h.carries c hm
  exact ⟨p, hp, hcarries.foldl (hc c hm)⟩

theorem perm (h : Stocks b cs contents) (hp : cs.Perm ds) : Stocks b ds contents := by
  refine ⟨fun c hm => h.carries c (hp.mem_iff.2 hm), fun id p hid => ?_⟩
  obtain ⟨c, hm, hc⟩ := h.named id p hid
  exact ⟨c, hp.mem_iff.1 hm, hc⟩

end Stocks

/-- The superblock lies before the blocks of every chunk. -/
theorem Chunk.spares_header {c : Chunk} (h : headerBlocks ≤ c.first) (s : Superblock) :
    (Change.write 0 s.toBytes).Spares c := by
  refine .inl ?_
  rw [Superblock.size_toBytes, headerBytes, Nat.zero_add]
  exact Nat.mul_le_mul_right _ h

/-- What is written to the blocks of one chunk leaves those of another alone. -/
theorem Chunk.Apart.spares_write {c d : Chunk} {data : ByteArray} (h : c.Apart d)
    (hs : data.size = c.byteLen) : (Change.write (c.first * blockSize) data).Spares d := by
  simp only [Change.Spares, Change.Avoids]
  rw [hs, byteLen, byteLen, ← Nat.add_mul, ← Nat.add_mul]
  exact h.imp (Nat.mul_le_mul_right _) (Nat.mul_le_mul_right _)

theorem Chunk.spares_cut {c : Chunk} {n : Nat} (h : c.after ≤ n) :
    (Change.cut (n * blockSize)).Spares c := by
  simp only [Change.Spares, Change.Avoids]
  rw [byteLen, ← Nat.add_mul]
  exact Nat.mul_le_mul_right _ h

/-- What one commit makes durable: a catalog, in the image of which its root is the payload. -/
structure Edition where
  version : UInt64
  root : Option Chunk
  nextId : UInt32
  chunks : List Chunk

namespace Edition

/-- A store before its first commit. -/
def blank : Edition := ⟨0, none, 1, []⟩

def superblock (E : Edition) : Superblock :=
  match E.root with
  | none => {}
  | some root => .naming E.version root

def image (E : Edition) : Image := ⟨E.version, E.nextId, E.chunks⟩

def imageBytes (E : Edition) : ByteArray := ofList E.image.toBytes

/-- The chunks whose blocks a recovery reads. -/
def held (E : Edition) : List Chunk := E.chunks ++ E.root.toList

/-- The edition can be read back once its blocks hold what it says. -/
structure Sound (E : Edition) : Prop where
  blank : E.root = none → E = .blank
  root : ∀ root, E.root = some root → root = { root with
    version := E.version
    size := E.imageBytes.size.toUInt64
    liveSize := E.imageBytes.size.toUInt64
    priority := 0 }
  plain : ∀ c ∈ E.chunks, c.priority = 0
  ascending : E.chunks.Pairwise (·.id < ·.id)
  ids_nodup : (E.held.map Chunk.id).Nodup
  ids_lt : ∀ c ∈ E.held, c.id < E.nextId
  apart : E.held.Pairwise Chunk.Apart
  header_le : ∀ c ∈ E.held, headerBlocks ≤ c.first
  len_pos : ∀ c ∈ E.held, 0 < c.len.toNat

/-- The blocks of the edition hold its image and these payloads. -/
structure Backed (E : Edition) (b : ByteArray) (contents : Contents) : Prop where
  root : ∀ root, E.root = some root → Carries b root E.imageBytes
  stocks : Stocks b E.chunks contents

theorem blank_sound : Sound blank where
  blank _ := rfl
  root := nofun
  plain := nofun
  ascending := .nil
  ids_nodup := .nil
  ids_lt := nofun
  apart := .nil
  header_le := nofun
  len_pos := nofun

theorem blank_backed (b : ByteArray) : Backed blank b fun _ => none :=
  ⟨nofun, nofun, nofun⟩

variable {E E' : Edition} {b : ByteArray} {ch : Change} {contents : Contents} {c : Chunk}

theorem mem_held : c ∈ E.held ↔ c ∈ E.chunks ∨ E.root = some c := by
  simp [held]

theorem Backed.foldl {chs : List Change} (h : E.Backed b contents)
    (hc : ∀ c ∈ E.held, ∀ ch ∈ chs, ch.Spares c) :
    E.Backed (chs.foldl Change.apply b) contents :=
  ⟨fun root hr => (h.root root hr).foldl (hc root (mem_held.2 (.inr hr))),
    h.stocks.foldl fun c hm => hc c (mem_held.2 (.inl hm))⟩

theorem Backed.change (h : E.Backed b contents) (hc : ∀ c ∈ E.held, ch.Spares c) :
    E.Backed (ch.apply b) contents :=
  have hone : ∀ c ∈ E.held, ∀ x ∈ [ch], x.Spares c := fun c hm _ hx =>
    List.mem_singleton.1 hx ▸ hc c hm
  h.foldl hone

theorem Backed.after_le (h : E.Backed b contents) (hc : c ∈ E.held) :
    c.after * blockSize ≤ b.size := by
  rcases mem_held.1 hc with hc | hc
  · obtain ⟨p, -, hp⟩ := h.stocks.carries c hc
    exact hp.after_le
  · exact (h.root c hc).after_le

theorem Sound.spares (h : E.Sound) (hc : c ∈ E.held) (s : Superblock) :
    (Change.write 0 s.toBytes).Spares c := Chunk.spares_header (h.header_le c hc) s

/-- A reader of these bytes finds this commit. -/
structure Read (E : Edition) (b : ByteArray) (contents : Contents) : Prop where
  sound : E.Sound
  backed : E.Backed b contents
  headerBytes_le : headerBytes ≤ b.size
  superblock : Superblock.read (slice b 0 headerBytes) = .ok E.superblock

end Edition

/-- Opening a file with these bytes leads to a store that holds these payloads. -/
def Recovers (b : ByteArray) (contents : Contents) : Prop := ∃ E : Edition, E.Read b contents

/-- On the file a commit is durable, and no pending change reaches into its blocks. -/
structure Edition.Settled (E : Edition) (m : Medium) (contents : Contents) : Prop where
  sound : E.Sound
  backed : E.Backed m.durable contents
  names : E.superblock.Names m.durable
  calm_header : m.Calm 0 headerBytes
  calm : ∀ c ∈ E.held, ∀ ch ∈ m.pending, ch.Spares c

theorem Change.Avoids.sub {ch : Change} {pos len pos' len' : Nat} (h : ch.Avoids pos len)
    (hpos : pos ≤ pos') (hend : pos' + len' ≤ pos + len) : ch.Avoids pos' len' := by
  cases ch <;> simp only [Change.Avoids] at * <;> omega

theorem Superblock.Names.foldl {b : ByteArray} {s : Superblock} {chs : List Change}
    (h : s.Names b) (hc : ∀ ch ∈ chs, ch.Avoids 0 headerBytes) :
    s.Names (chs.foldl Change.apply b) := by
  refine ⟨Change.holds_foldl (fun ch hch => ?_) h.1, Change.holds_foldl (fun ch hch => ?_) h.2⟩ <;>
  · rw [Superblock.size_copy]
    exact (hc ch hch).sub (by decide) (by decide)

namespace Superblock

variable {s x y : Superblock} {b : ByteArray}

theorem holds_first (h : Holds b 0 x.copy) (s : Superblock) :
    Holds (Change.apply b (.write blockSize s.copy)) 0 x.copy :=
  Change.Avoids.holds (.inr (by rw [size_copy]; decide)) h

theorem holds_second (h : Holds b blockSize y.copy) (s : Superblock) :
    Holds (Change.apply b (.write 0 s.copy)) blockSize y.copy :=
  Change.Avoids.holds (.inl (by rw [size_copy]; decide)) h

/-- Each copy is replaced as a whole or not at all. -/
theorem holds_kept (h : x.Names b) {kept : List Change}
    (hk : kept.Sublist [.write 0 s.copy, .write blockSize s.copy]) :
    ∃ y z, (y = x ∨ y = s) ∧ (z = x ∨ z = s) ∧
      Holds (kept.foldl Change.apply b) 0 y.copy ∧
      Holds (kept.foldl Change.apply b) blockSize z.copy := by
  obtain ⟨h1, h2⟩ := h
  cases hk with
  | cons _ hk =>
    cases hk with
    | cons _ hk =>
      obtain rfl := List.sublist_nil.1 hk
      exact ⟨x, x, .inl rfl, .inl rfl, h1, h2⟩
    | cons_cons _ hk =>
      obtain rfl := List.sublist_nil.1 hk
      exact ⟨x, s, .inl rfl, .inr rfl, holds_first h1 s, Change.holds_write ..⟩
  | cons_cons _ hk =>
    cases hk with
    | cons _ hk =>
      obtain rfl := List.sublist_nil.1 hk
      exact ⟨s, x, .inr rfl, .inl rfl, Change.holds_write .., holds_second h2 s⟩
    | cons_cons _ hk =>
      obtain rfl := List.sublist_nil.1 hk
      exact ⟨s, s, .inr rfl, .inr rfl, holds_first (Change.holds_write ..) s, Change.holds_write ..⟩

theorem Names.of_write (s : Superblock) (b : ByteArray) :
    s.Names (Change.apply b (.write 0 s.toBytes)) := by
  have h := Change.holds_write b 0 s.toBytes
  have hs := s.size_toBytes
  obtain ⟨hfirst, hsecond⟩ := s.slice_toBytes
  have h1 : Holds _ (0 + 0) (slice s.toBytes 0 blockSize) := h.part (by rw [hs]; decide)
  have h2 : Holds _ (0 + blockSize) (slice s.toBytes blockSize blockSize) :=
    h.part (by rw [hs]; decide)
  rw [hfirst] at h1
  rw [hsecond, Nat.zero_add] at h2
  exact ⟨h1, h2⟩

end Superblock

namespace Edition.Settled

variable {E E' : Edition} {m : Medium} {ch : Change} {b : ByteArray} {contents contents' : Contents}

theorem read_foldl (h : E.Settled m contents) {chs : List Change}
    (hhead : ∀ ch ∈ chs, ch.Avoids 0 headerBytes)
    (hc : ∀ c ∈ E.held, ∀ ch ∈ chs, ch.Spares c) :
    E.Read (chs.foldl Change.apply m.durable) contents :=
  have hn := h.names.foldl hhead
  ⟨h.sound, h.backed.foldl hc, hn.headerBytes_le, hn.read_slice⟩

theorem read_content (h : E.Settled m contents) : E.Read m.content contents :=
  h.read_foldl h.calm_header h.calm

/-- Whatever part of the pending changes a crash lets through, the commit is found. -/
theorem read_crashImage (h : E.Settled m contents) (hb : m.CrashImage b) : E.Read b contents := by
  obtain ⟨kept, hk, rfl⟩ := hb
  have hpiece (p : Change) (hp : p ∈ kept) : ∃ ch ∈ m.pending, p ∈ ch.pieces :=
    List.mem_flatMap.1 (hk.subset hp)
  refine h.read_foldl (fun p hp => ?_) fun c hc p hp => ?_
  · obtain ⟨ch, hch, hpc⟩ := hpiece p hp
    exact (h.calm_header ch hch).piece hpc
  · obtain ⟨ch, hch, hpc⟩ := hpiece p hp
    exact Change.Avoids.piece (h.calm c hc ch hch) hpc

theorem sync (h : E.Settled m contents) : E.Settled m.sync contents where
  sound := h.sound
  backed := h.read_content.backed
  names := h.names.foldl h.calm_header
  calm_header := m.calm_sync 0 headerBytes
  calm := nofun

theorem change (h : E.Settled m contents) (hhead : ch.Avoids 0 headerBytes)
    (hc : ∀ c ∈ E.held, ch.Spares c) : E.Settled (m.change ch) contents where
  sound := h.sound
  backed := h.backed
  names := h.names
  calm_header := h.calm_header.change hhead
  calm c hm := Medium.Calm.change (h.calm c hm) (hc c hm)

/-- While the superblock of the next commit is on its way, one of the two commits is found. -/
theorem read_publish (h : E.Settled m contents) (hm : m.pending = []) (hs : E'.Sound)
    (hb' : E'.Backed m.durable contents')
    (hb : (m.change (.write 0 E'.superblock.toBytes)).CrashImage b) :
    E.Read b contents ∨ E'.Read b contents' := by
  obtain ⟨kept, hk, rfl⟩ := hb
  have hpieces : (m.change (.write 0 E'.superblock.toBytes)).pending.flatMap Change.pieces =
      [.write 0 E'.superblock.copy, .write blockSize E'.superblock.copy] := by
    rw [Medium.change, hm, List.nil_append, List.flatMap_cons, List.flatMap_nil, List.append_nil,
      Superblock.pieces_write]
  rw [hpieces] at hk
  have hkept (p : Change) (hp : p ∈ kept) : p ∈ Change.pieces (.write 0 E'.superblock.toBytes) := by
    rw [Superblock.pieces_write]
    exact hk.subset hp
  have hE := h.backed.foldl fun c hc p hp => (h.sound.spares hc _).piece (hkept p hp)
  have hE' := hb'.foldl fun c hc p hp => (hs.spares hc _).piece (hkept p hp)
  obtain ⟨y, z, hy, hz, h1, h2⟩ := Superblock.holds_kept h.names hk
  have hle : headerBytes ≤ (kept.foldl Change.apply m.durable).size := by
    have hend := h2.1
    rw [Superblock.size_copy] at hend
    exact hend
  have hread := Superblock.read_slice h1 h2
  have hchoice : (if z.version < y.version then y else z) = E.superblock ∨
      (if z.version < y.version then y else z) = E'.superblock := by
    split
    · exact hy
    · exact hz
  rcases hchoice with hc | hc <;> rw [hc] at hread
  · exact .inl ⟨h.sound, hE, hle, hread⟩
  · exact .inr ⟨hs, hE', hle, hread⟩

/-- Once the superblock of the next commit is durable, that commit counts. -/
theorem publish (hm : m.pending = []) (hs : E'.Sound) (hb' : E'.Backed m.durable contents') :
    E'.Settled (m.change (.write 0 E'.superblock.toBytes)).sync contents' := by
  have hcontent : m.content = m.durable := by rw [Medium.content, hm, List.foldl_nil]
  have hdurable : (m.change (.write 0 E'.superblock.toBytes)).sync.durable =
      Change.apply m.durable (.write 0 E'.superblock.toBytes) := by
    rw [Medium.sync, Medium.content_change, hcontent]
  refine ⟨hs, ?_, ?_, Medium.calm_sync _ _ _, fun _ _ => List.forall_mem_nil _⟩ <;> rw [hdurable]
  · exact hb'.change fun c hc => hs.spares hc _
  · exact .of_write _ _

end Edition.Settled

end BlockStore
