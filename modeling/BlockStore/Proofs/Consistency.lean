import BlockStore.Proofs.Placement
import BlockStore.Proofs.Recovery

namespace BlockStore

open Bytes

namespace Chunk

variable {c d : Chunk} {p : ByteArray}

theorem apart_of_disjoint (hc : 0 < c.len.toNat) (hd : 0 < d.len.toNat)
    (h : ∀ b, c.Covers b → ¬d.Covers b) : c.Apart d := by
  have h1 := h c.first
  have h2 := h d.first
  simp only [Covers, Apart, after_eq] at *
  omega

/-- Writing a chunk leaves those apart from it alone. -/
theorem Apart.spares (h : c.Apart d) (hf : Frame.Fits c p) :
    (Change.write (c.first * blockSize) (Frame.framed c p)).Spares d :=
  h.spares_write (Frame.size_framed hf)

end Chunk

/-- An allocation under `r` leaves this block alone wherever it goes. -/
def Reserved.Closed (r : Reserved) (b : Nat) : Prop := r.low ≤ b ∧ ∃ high, r.high = some high ∧ b < high

theorem Occupancy.Outside.not_closed {o : Occupancy} {r : Reserved} {start n b : Nat}
    (h : o.Outside r start n) (hb : r.Closed b) : ¬(start ≤ b ∧ b < start + n) := by
  obtain ⟨hlow, high, hh, hlt⟩ := hb
  simp only [Outside, hh] at h
  omega

namespace Medium

/-- The superblock of a commit later than `version` is on its way. -/
def Publishing (m : Medium) (version : UInt64) : Prop :=
  ∃ s : Superblock, Change.write 0 s.toBytes ∈ m.pending ∧ version < s.version

/-- What a crash leaves opens with the payloads of the last commit or, while the superblock of the
next one is on its way, with those of the next. -/
def Safe (m : Medium) (version : UInt64) (committed live : Contents) : Prop :=
  ∀ b, m.CrashImage b → Recovers b committed ∨ m.Publishing version ∧ Recovers b live

end Medium

/-- The file once the superblock of `E` is durable. -/
def Edition.publishedOn (E : Edition) (m : Medium) : Medium :=
  (m.sync.change (.write 0 E.superblock.toBytes)).sync

theorem Edition.Settled.safe {E : Edition} {m : Medium} {committed : Contents}
    (h : E.Settled m committed) (version : UInt64) (live : Contents) :
    m.Safe version committed live :=
  fun _ hb => .inl ⟨E, h.read_crashImage hb⟩

namespace Engine

open BlockStore.Action Device

variable {δ : Type} [Device δ] [Lawful δ] {e : Engine δ} {m : Medium} {E E' : Edition}
  {contents contents' : Contents} {α : Type}

/-- From one commit to the next by way of the superblock: a crash on the way leaves either. -/
theorem publish_ends (a : α) (last : Action (Engine δ) α) (h : e.Shows m) (hE : E.Settled m contents) (hs : E'.Sound)
    (hb : E'.Backed m.content contents') (hroom : headerBytes < Lawful.room δ)
    (hlast : ∀ e₁ m₁, e₁.Shows m₁ →
      Ends last e₁ (fun x e' => a = x ∧ Keeps e₁ m₁.sync e') (Stops m₁)) :
    Ends (do sync; write 0 E'.superblock.toBytes; last) e
      (fun x e' => a = x ∧ Keeps e (E'.publishedOn m) e')
      fun _ e' => Lawful.fails δ ∧ ∃ m', e'.Shows m' ∧ ∀ b, m'.CrashImage b →
        E.Read b contents ∨
          Change.write 0 E'.superblock.toBytes ∈ m'.pending ∧ E'.Read b contents' := by
  have hsize : 0 + E'.superblock.toBytes.size < Lawful.room δ := by
    rwa [Superblock.size_toBytes, Nat.zero_add]
  refine (sync_ends h).bind (fun _ e₁ k₁ => ?_) ?_
  · refine (write_ends k₁.1 (Superblock.size_toBytes_pos _) hsize).bind (fun _ e₂ k₂ => ?_) ?_
    · refine (hlast e₂ _ k₂.1).mono ?_ ?_
      · rintro x e₃ ⟨hx, k₃⟩
        exact ⟨hx, (k₁.trans k₂).trans k₃⟩
      · rintro f e₃ ⟨hf, h₃⟩
        refine ⟨hf, _, h₃, fun b hcrash => ?_⟩
        refine (hE.sync.read_publish rfl hs hb hcrash).imp id fun hread => ⟨?_, hread⟩
        exact List.mem_append_right _ List.mem_cons_self
    · rintro f e₂ ⟨hf, h₂⟩
      exact ⟨hf, _, h₂, fun b hcrash => .inl (hE.sync.read_crashImage hcrash)⟩
  · rintro f e₁ ⟨hf, h₁⟩
    exact ⟨hf, _, h₁, fun b hcrash => .inl (hE.read_crashImage hcrash)⟩

end Engine

/-- The payloads of the last commit, given those of the one before it and whether it has answered. -/
def Contents.latest (answered : Bool) (before live : Contents) : Contents := cond answered live before

theorem Contents.latest_self (answered : Bool) (live : Contents) :
    Contents.latest answered live live = live := Bool.cond_self answered live

namespace Store

open BlockStore.Action Engine Device

variable {δ : Type} [Device δ] [Lawful δ] {v : Store δ} {m : Medium} {E : Edition}
  {live committed : Contents} {shield : Nat → Prop}

/-- What holds of an open store: the file is `m`, its last commit `E`, `live` are the payloads of
the store and `committed` those of the commit. The records still have the chunks of the commit; those
that have moved since were under the shield. -/
structure Consistent (v : Store δ) (m : Medium) (E : Edition) (live committed : Contents)
    (shield : Nat → Prop) : Prop where
  shows : v.engine.Shows m
  layout : Layout v.engine.occupancy v.records.held
  ids_nodup : (v.records.held.map Chunk.id).Nodup
  ids_lt : ∀ c ∈ v.records.held, c.id < v.records.nextId
  plain : ∀ c ∈ v.records.data.chunks, c.priority = 0
  stop_le : v.engine.occupancy.stop * blockSize ≤ m.content.size
  stocks : Stocks m.content v.records.data.chunks live
  settled : E.Settled m committed
  trails : ∀ d ∈ E.held, ∃ c ∈ v.records.held, c.id = d.id ∧ c.len = d.len ∧
    (c.first = d.first ∨ ∀ b, d.Covers b → shield b)
  root : v.records.root = E.root
  version : v.records.version = E.version
  clean : v.records.dirty = false →
    E.chunks = v.records.data.chunks ∧ E.nextId = v.records.nextId ∧ committed = live

/-- No block is under a shield. -/
def bare : Nat → Prop := fun _ => False

/-- The device has refused, and what a crash would leave opens with the payloads of a commit. -/
def CutOff (committed live : Contents) (_ : Failure) (v : Store δ) : Prop :=
  Lawful.fails δ ∧ ∃ m, v.engine.Shows m ∧ m.Safe v.records.version committed live

theorem CutOff.of_live {answered : Bool} {f : Failure}
    (h : CutOff (.latest answered live live) live f v) : CutOff live live f v := by
  rwa [Contents.latest_self] at h

namespace Consistent

theorem mono {shield' : Nat → Prop} (h : Consistent v m E live committed shield)
    (hs : ∀ b, shield b → shield' b) : Consistent v m E live committed shield' :=
  { h with trails := fun d hd => (h.trails d hd).imp fun _ hc =>
      ⟨hc.1, hc.2.1, hc.2.2.1, hc.2.2.2.imp id fun hsh b hb => hs b (hsh b hb)⟩ }

/-- Of the blocks of the last commit only those under the shield are free. -/
theorem shielded (h : Consistent v m E live committed shield) :
    ∀ d ∈ E.held, ∀ b, d.Covers b → b ∈ v.engine.occupancy.used ∨ shield b := by
  intro d hd b hb
  obtain ⟨c, hc, -, hlen, hplace⟩ := h.trails d hd
  refine hplace.imp (fun hfirst => h.layout.filled hc b ?_ ?_) fun hsh => hsh b hb
  · rw [hfirst]
    exact hb.1
  · rw [hfirst, hlen, ← Chunk.after_eq]
    exact hb.2

theorem header_pos (h : Consistent v m E live committed shield) :
    headerBlocks ≤ v.engine.occupancy.stop := h.layout.header_le_stop

theorem headerBytes_lt (h : Consistent v m E live committed shield) :
    headerBytes < Lawful.room δ := by
  have h1 := Lawful.size_lt h.shows
  have h2 := h.settled.read_content.headerBytes_le
  omega

/-- A new chunk is apart from the chunks of the last commit. -/
theorem apart_of_fresh (h : Consistent v m E live committed shield) {r : Reserved} {c : Chunk}
    {p : ByteArray} (hf : v.engine.Fresh r c p) (hs : ∀ b, shield b → ¬c.Covers b) :
    ∀ d ∈ E.held, c.Apart d := by
  refine fun d hd => Chunk.apart_of_disjoint hf.len_pos (h.settled.sound.len_pos d hd)
    fun b hb hdb => ?_
  rcases h.shielded d hd b hdb with hu | hsh
  · exact hf.vacant b hb.1 (by rw [← Chunk.after_eq]; exact hb.2) hu
  · exact hs b hsh hb

/-- A new chunk is apart from the chunks that are held. -/
theorem apart_held (h : Consistent v m E live committed shield) {r : Reserved} {c : Chunk}
    {p : ByteArray} (hf : v.engine.Fresh r c p) : ∀ d ∈ v.records.held, c.Apart d :=
  fun _ hd => (h.layout.not_vacant hd hf.vacant hf.len_pos).symm

/-- The engine and the file after a chunk has been put on new blocks, with the records as before. -/
structure Grown (v : Store δ) (E : Edition) (live committed : Contents) (shield : Nat → Prop)
    (c : Chunk) (p : ByteArray) (m' : Medium) (e' : Engine δ) : Prop where
  shows : e'.Shows m'
  mode : e'.mode = v.engine.mode
  layout : Layout e'.occupancy (c :: v.records.held)
  stop_le : e'.occupancy.stop * blockSize ≤ m'.content.size
  stop_le_max : e'.occupancy.stop ≤ max v.engine.occupancy.stop c.after
  stocks : Stocks m'.content v.records.data.chunks live
  carries : Carries m'.content c p
  settled : E.Settled m' committed
  apart : ∀ d ∈ E.held, c.Apart d

theorem grow (h : Consistent v m E live committed shield) {r : Reserved} {c : Chunk}
    {p : ByteArray} {e' : Engine δ} (hf : v.engine.Fresh r c p)
    (hs : ∀ b, shield b → ¬c.Covers b) (hp : v.engine.Puts c p m e') :
    Grown v E live committed shield c p
      (m.change (.write (c.first * blockSize) (Frame.framed c p))) e' := by
  have hstop := hp.stop_le
  have hheld := h.apart_held hf
  have hE := h.apart_of_fresh hf hs
  obtain ⟨hshows, hmode, wasteful, hocc⟩ := hp
  refine ⟨hshows, hmode, ?_, ?_, hstop, ?_, ?_, ?_, hE⟩
  · rw [hocc]
    exact h.layout.add hf.len_pos hf.vacant
  · have hle := h.stop_le
    have hfit := Frame.size_framed hf.fits
    rw [Chunk.byteLen] at hfit
    rw [Medium.content_change, Change.size_apply_write, hfit]
    simp only [mul_blockSize] at *
    omega
  · rw [Medium.content_change]
    refine h.stocks.change fun d hd => (hheld d ?_).spares hf.fits
    exact List.mem_append_left _ (List.mem_append_left _ hd)
  · rw [Medium.content_change]
    exact .of_write _ hf.fits
  · refine h.settled.change (.inr ?_) fun d hd => (hE d hd).spares hf.fits
    have hle := h.layout.header_le_of_vacant hf.len_pos hf.vacant
    rw [Nat.zero_add, headerBytes]
    exact Nat.mul_le_mul_right _ hle

end Consistent

end Store

end BlockStore
