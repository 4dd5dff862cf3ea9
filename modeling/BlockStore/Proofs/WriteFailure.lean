import BlockStore.Proofs.Numbering
import BlockStore.Proofs.Onward
import BlockStore.Proofs.Service
import BlockStore.Proofs.Shelter
import BlockStore.Proofs.TornWrite

namespace BlockStore

open BlockStore.Action Bytes Device Engine

namespace Store

section

variable {δ : Type} [Device δ] {v : Store δ} {b p : ByteArray} {c : Chunk}

/-- A chunk that the records know is read as what it carries. -/
theorem read_of_readsAs (h : ReadsAs v.engine.device b) (hb : b.size < UInt64.size)
    (hfind : v.records.find? c.id = some c) (hn : 0 < c.len.toNat) (hc : Carries b c p) :
    (read c.id v).1 = .ok p := by
  obtain ⟨I, hI, hanswers⟩ := h
  have hverify := Frame.verify_framed hc.fits rfl rfl rfl
  rw [← hc.holds.2, Frame.size_framed hc.fits] at hverify
  have hends : Ends (read c.id) v (fun q _ => q = p) fun _ _ => False := by
    unfold read
    rw [ends_bind, ends_get, hfind]
    dsimp only
    rw [ends_bind, Volume.onEngine, ends_within]
    refine (load_of_answers (hanswers _ hI) hn (Nat.lt_of_le_of_lt hc.after_le hb)).mono ?_
      fun _ _ hf => hf.2 hc.after_le _ hverify
    rintro ⟨head, buf⟩ e ⟨⟨-, rfl, hhead⟩, -⟩
    obtain rfl := Except.ok.inj (hhead.symm.trans hverify)
    rw [← Frame.size_framed hc.fits, hc.holds.2]
    exact ends_pure.2 (Frame.payload_framed hc.fits)
  obtain ⟨_, w, hrun, rfl⟩ := hends.total
  rw [hrun]

end

/-- From two files with these bytes the same store is opened: its records, the blocks in use and the
payloads are the same. -/
def OpensAlike (b b' : ByteArray) : Prop :=
  ∀ (ε : Type) [Device ε] [Brittle ε] (d d' : ε) (settings : Settings), Legible.Has d b →
    Legible.Has d' b' → settings.Usable →
    ∃ u u', openOn settings d = .ok u ∧ openOn settings d' = .ok u' ∧ u'.records = u.records ∧
      (∀ k, k ∈ u'.engine.occupancy.used ↔ k ∈ u.engine.occupancy.used) ∧
      ∀ c ∈ u.records.chunks, ∃ p, (read c.id u).1 = .ok p ∧ (read c.id u').1 = .ok p

end Store

namespace Edition

open Store

variable {E : Edition} {b b' : ByteArray} {contents : Contents} {c : Chunk}

/-- The chunks of a commit carry the same wherever it is. -/
theorem Backed.alike (h : E.Backed b contents) (h' : E.Backed b' contents) (hc : c ∈ E.held) :
    ∃ p, Carries b c p ∧ Carries b' c p := by
  rcases mem_held.1 hc with hc | hc
  · obtain ⟨p, hp, hcarries⟩ := h.stocks.carries c hc
    obtain ⟨q, hq, hcarries'⟩ := h'.stocks.carries c hc
    obtain rfl := Option.some.inj (hp.symm.trans hq)
    exact ⟨p, hcarries, hcarries'⟩
  · exact ⟨_, h.root c hc, h'.root c hc⟩

theorem Read.opensAlike (h : E.Read b contents) (h' : E.Read b' contents)
    (hb : b.size < UInt64.size) (hb' : b'.size < UInt64.size) : OpensAlike b b' := by
  intro ε _ _ d d' settings hd hd' hs
  have hkeeps {d : ε} {b : ByteArray} {u : Store ε} (h : E.Read b contents) (hd : Legible.Has d b)
      (hu : openOn settings d = .ok u) : ReadsAs u.engine.device b := by
    have hne : Device.size d ≠ 0 := by
      have := h.headerBytes_le
      have : 0 < headerBytes := by decide
      rw [Legible.size_eq hd]
      omega
    have hread := openOn_reads (I := fun d => Legible.Has d b) Brittle.read_keeps hd hne settings
    rw [hu] at hread
    exact Legible.readsAs hread
  obtain ⟨u, hu, hrecords, hused⟩ := h.opens hb hd hs
  obtain ⟨u', hu', hrecords', hused'⟩ := h'.opens hb' hd' hs
  have hcat := h.sound.isCatalog
  refine ⟨u, u', hu, hu', hrecords'.trans hrecords.symm, fun k => by rw [hused', hused],
    fun c hc => ?_⟩
  rw [hrecords] at hc
  have hheld : c ∈ E.held := hcat.held_eq ▸ E.catalog.chunks_subperm.subset hc
  have hfind : E.catalog.find? c.id = some c :=
    (Catalog.find?_eq_some (hcat.held_eq ▸ h.sound.ids_nodup)).2 ⟨hc, rfl⟩
  obtain ⟨p, hp, hp'⟩ := h.backed.alike h'.backed hheld
  have hpos := h.sound.len_pos c hheld
  exact ⟨p, read_of_readsAs (hkeeps h hd hu) hb (hrecords ▸ hfind) hpos hp,
    read_of_readsAs (hkeeps h' hd' hu') hb' (hrecords' ▸ hfind) hpos hp'⟩

end Edition

namespace Store

variable {δ τ : Type} [Device δ] [Faithful δ] [Device τ] {v u : Store δ} {w : Store τ} {t : τ} {d : δ}
  {e : Engine δ} {m : Medium} {E : Edition} {live committed : Contents}
  {payload b b' : ByteArray}

/-- What is left of a write that failed, when the bytes of the file were `b` and are `b'`. -/
structure Foiled (v : Store δ) (b b' : ByteArray) (w : Store τ) : Prop where
  spared : ∃ u, Spared v u ∧ w.records = u.records
  returned : v.engine.Returned w.engine
  reads : ReadsAs w.engine.device b'
  guards : v.engine.occupancy.Guards b b'
  size_lt : b'.size < UInt64.size

namespace Consistent

/-- The last commit is still on a file with the blocks in use as they were. -/
theorem settled_guarded (h : Consistent u m E live committed bare)
    (hguards : u.engine.occupancy.Guards m.content b') : E.Settled ⟨b', []⟩ committed := by
  refine hguards.settled (fun k hk => (h.layout.mem_used k).2 (.inl hk)) (fun c hc k h₁ h₂ => ?_)
    h.settled
  exact (h.shielded c hc k ⟨h₁, h₂⟩).resolve_right fun hno => hno

/-- On such a file the store can go on. -/
theorem guarded (h : Consistent u m E live committed bare) (hreturned : u.engine.Returned e)
    (hguards : u.engine.occupancy.Guards m.content b') (he : e.Shows ⟨b', []⟩) :
    Consistent ⟨e, u.records⟩ ⟨b', []⟩ E live committed bare where
  shows := he
  layout := { h.layout with
    headerBlocks := hreturned.shape.1.trans h.layout.headerBlocks
    blockSize := hreturned.shape.2.trans h.layout.blockSize
    mem_used := fun k => (hreturned.used k).trans (h.layout.mem_used k) }
  ids_nodup := h.ids_nodup
  ids_lt := h.ids_lt
  plain := h.plain
  stop_le := by
    have hstop : e.occupancy.stop ≤ u.engine.occupancy.stop :=
      Occupancy.stop_le fun k hk => Occupancy.lt_stop ((hreturned.used k).1 hk)
    exact Nat.le_trans (Nat.mul_le_mul_right _ hstop) (Nat.le_trans h.stop_le hguards.le_size)
  stocks := hguards.stocks (fun c hc => h.layout.filled (u.records.data_subperm.subset hc)) h.stocks
  settled := h.settled_guarded hguards
  trails := h.trails
  root := h.root
  version := h.version
  clean := h.clean

end Consistent

/-- Writes give no id that one of these chunks has. -/
def GivesNew {ε : Type} [Device ε] (v : Store ε) (held : List Chunk) : Prop :=
  ∀ payload c w, write payload v = (.ok c, w) → ∀ d ∈ held, d.id ≠ c.id

theorem givesNew_of_numbered {ε : Type} [Device ε] {v : Store ε} {n : UInt32} {held : List Chunk}
    (hv : v.records.Numbered n) (hheld : ∀ c ∈ held, c.id < n) :
    v.GivesNew (held ++ v.records.held) := by
  intro payload c w hwrite d hd
  obtain ⟨hle, hne⟩ := id_fresh hv hwrite
  rcases List.mem_append.1 hd with hd | hd
  · exact UInt32.ne_of_lt (UInt32.lt_of_lt_of_le (hheld d hd) hle)
  · exact hne d hd

namespace Foiled

variable (h : Foiled v m.content b' w) (hv : Consistent (v.marked true) m E live committed bare)

include h

omit [Device δ] [Faithful δ] in
theorem records_eq : w.records = v.records ∨
    w.records = { v.records with nextId := v.records.nextId + 1 } := by
  obtain ⟨u, hu, hrecords⟩ := h.spared
  rw [hrecords]
  exact hu.imp (congrArg _) fun hu => congrArg _ hu.2

omit [Device δ] [Faithful δ] in
theorem held_eq : w.records.held = v.records.held := by
  rcases h.records_eq with heq | heq
  · rw [heq]
  · rw [heq]
    rfl

omit [Device δ] [Faithful δ] in
theorem find?_eq (id : UInt32) : w.records.find? id = v.records.find? id := by
  rcases h.records_eq with heq | heq
  · rw [heq]
  · rw [heq]
    rfl

include hv

theorem numbered : w.records.Numbered w.records.nextId := by
  obtain ⟨u, hu, hrecords⟩ := h.spared
  rw [hrecords]
  exact ⟨UInt32.le_refl _, (hv.spared hu).ids_lt⟩

/-- What has been written is not in the way of any chunk. -/
theorem reads_same (ht : ReadsAs t m.content) (c : Chunk) (hc : c ∈ v.records.chunks) :
    ∃ p, (read c.id (v.on t)).1 = .ok p ∧ (read c.id w).1 = .ok p := by
  have hheld := v.records.chunks_subperm.subset hc
  have hfind : v.records.find? c.id = some c :=
    (Catalog.find?_eq_some hv.ids_nodup).2 ⟨hc, rfl⟩
  have hword : m.content.size < UInt64.size :=
    Nat.lt_trans (Lawful.size_lt hv.shows) (room_lt (δ := δ))
  have hpos := hv.layout.len_pos c hheld
  obtain ⟨p, hp⟩ := hv.exists_carries hc
  have hp' := h.guards.carries (hv.layout.filled hheld) hp
  exact ⟨p, read_of_readsAs (v := v.on t) ht hword hfind hpos hp,
    read_of_readsAs h.reads h.size_lt ((h.find?_eq _).trans hfind) hpos hp'⟩

theorem opensAlike : OpensAlike m.content b' :=
  hv.settled.read_content.opensAlike (hv.settled_guarded h.guards).read_content
    (Nat.lt_trans (Lawful.size_lt hv.shows) (room_lt (δ := δ))) h.size_lt

/-- Where the file can be written the store goes on. -/
theorem sane (hn : v.engine.reserved = .nothing) (hd : Lawful.Shows d ⟨b', []⟩) :
    Sane ((w.on d).marked true) := by
  obtain ⟨u, hu, hrecords⟩ := h.spared
  have hreturned : u.engine.Returned (w.on d).engine := by
    rw [hu.engine_eq]
    exact ⟨h.returned.mode, h.returned.shape, h.returned.used⟩
  have hguards : u.engine.occupancy.Guards m.content b' := by
    rw [hu.engine_eq]
    exact h.guards
  have hcons := (hv.spared hu).guarded hreturned hguards hd
  have hwhole : (w.on d).marked true = ⟨(w.on d).engine, (u.marked true).records⟩ := by
    rw [marked, on, hrecords]
    rfl
  rw [← hwhole] at hcons
  exact ⟨(congrArg Mode.reserved h.returned.mode).trans hn, nofun, _, _, _, _, hcons⟩

end Foiled

section

variable [Brittle τ]

/-- On another device with the same bytes there are positions for one more chunk. -/
theorem Consistent.room_on (h : Consistent v m E live committed bare)
    (hn : v.engine.reserved = .nothing) (ht : Legible.Has t m.content)
    (hp : payload.size < UInt32.size) :
    ((v.on t).engine.occupancy.ceiling (v.on t).engine.heldBack +
      Chunk.blocksFor payload.size) * blockSize < UInt64.size := by
  have hsize : m.content.size < 2 ^ 63 :=
    Nat.lt_of_lt_of_le (Lawful.size_lt h.shows) (Lawful.room_le (δ := δ))
  have happend : (v.on t).engine.appendFrom =
      max (blocksCovering m.content.size blockSize) v.engine.occupancy.stop := by
    rw [appendFrom, Engine.size, on, Legible.size_eq ht]
  have hceil : (v.on t).engine.occupancy.ceiling (v.on t).engine.heldBack * blockSize <
      m.content.size + blockSize := by
    have hle := ceiling_heldBack_le (v.on t).engine
    have hstop := h.stop_le
    have hreserved : (v.on t).engine.reserved = .nothing := hn
    rw [happend, hreserved] at hle
    simp only [Reserved.nothing, Option.getD_some, blocksCovering, blockSize] at *
    omega
  have hblocks := Nat.mul_le_mul_right blockSize (Chunk.blocksFor_le hp)
  have hmax : 2 ^ 63 + blockSize + Chunk.maxBlocks * blockSize < UInt64.size := by decide
  rw [Nat.add_mul]
  omega

/-- A write that fails takes an id at most. What it has written lies on blocks that are free. -/
theorem write_foiled (h : Consistent (v.marked true) m E live committed bare)
    (hn : v.engine.reserved = .nothing) (ht : Legible.Has t m.content) :
    Ends (write payload) (v.on t) (fun _ _ => True)
      fun f w => ∀ err, f = .error err → ∃ b', Foiled v m.content b' w := by
  have hword : m.content.size < UInt64.size :=
    Nat.lt_trans (Lawful.size_lt h.shows) (room_lt (δ := δ))
  have hkept {u : Store δ} (hu : Spared v u) {e : Engine τ} (he : v.engine.Returned e)
      (hd : Legible.Has e.device m.content) : ∃ b', Foiled v m.content b' ⟨e, u.records⟩ :=
    ⟨m.content, ⟨u, hu, rfl⟩, he, Legible.readsAs hd, .refl _ _, hword⟩
  have hsame : v.engine.Returned (v.on t).engine := ⟨rfl, ⟨rfl, rfl⟩, fun _ => .rfl⟩
  refine write_of_place (fun _ _ _ => hkept (.inl rfl) hsame ht) (fun _ => nofun) (fun _ _ => nofun)
    fun hw hlt _ => ?_
  have hskipped : Spared v v.skipped := .inr ⟨hlt, rfl⟩
  by_cases hp : payload.size < UInt32.size
  · have hroom := h.room_on hn ht hp
    refine (place_returns (A := True) (F := fun f d => ∀ err, f = .error err → ∃ b',
      ReadsAs d b' ∧ v.engine.occupancy.Guards m.content b' ∧ b'.size < UInt64.size) hw
      h.layout.lodged hp hroom fun start data hle hvacant hdata => ?_).mono (fun _ _ h => h) ?_
    · refine (Brittle.write_breaks ht).mono (fun _ _ _ => trivial) fun f d hf err he => ?_
      obtain ⟨b', hd, hscrap⟩ := hf err he
      rw [hdata] at hscrap
      have hend := Nat.mul_le_mul_right blockSize
        (Nat.add_le_add_right hle (Chunk.blocksFor payload.size))
      rw [Nat.add_mul] at hend
      refine ⟨b', hd, hscrap.guards hvacant, Nat.lt_of_le_of_lt hscrap.size_le ?_⟩
      exact Nat.max_lt.2 ⟨hword, Nat.lt_of_le_of_lt hend hroom⟩
    · rintro f e ⟨hf, hreturned⟩ err he
      obtain ⟨b', hd, hguards, hsize⟩ := hf err he
      have hback := hreturned err he
      exact ⟨b', ⟨_, hskipped, rfl⟩, ⟨hback.mode, hback.shape, hback.used⟩, hd, hguards, hsize⟩
  · refine (place_oversized (Nat.le_of_not_lt hp)).mono (fun _ _ => False.elim) ?_
    rintro _ _ rfl _ _
    exact hkept hskipped hsame ht

end

/-- A write has taken the store from `v` to `w` and failed, and nothing of it can be seen but an id that
is left out. The bytes of the file were `b`. -/
structure Unseen (δ : Type) [Device δ] [Faithful δ] (v : Store τ) (b : ByteArray) (w : Store τ) :
    Prop where
  records : w.records = v.records ∨ w.records = { v.records with nextId := v.records.nextId + 1 }
  used : ∀ k, k ∈ w.engine.occupancy.used ↔ k ∈ v.engine.occupancy.used
  reads : ∀ c ∈ v.records.chunks, ∃ p, (read c.id v).1 = .ok p ∧ (read c.id w).1 = .ok p
  ids : ∀ u, Later w u → u.GivesNew (v.records.held ++ u.records.held)
  file : ∃ b', ReadsAs w.engine.device b' ∧ OpensAlike b b' ∧
    ∀ d : δ, Lawful.Shows d ⟨b', []⟩ → ∀ u, Onward (w.on d) u → u.GivesNew u.records.held

/-- A write that fails leaves the records as they were, but for the next id, and so the blocks in use,
the payloads of all chunks, and the store that the file opens as. No later write gives an id that a
chunk has, or one that waits for its removal to be committed.

Before the write no pass has broken off, and after the file is opened again none does: see `Onward`. -/
theorem write_failure_unseen [Brittle τ] {err : StoreError} (hv : Unbroken v)
    (ht : Legible.Has t (Faithful.bytes v.engine.device))
    (hwrite : write payload (v.on t) = (.error (.error err), w)) :
    Unseen δ (v.on t) (Faithful.bytes v.engine.device) w := by
  obtain ⟨hn, -, m, E, live, committed, hcons⟩ := hv.sane
  have hbytes : Faithful.bytes v.engine.device = m.content := Faithful.bytes_eq hcons.shows
  rw [hbytes] at ht ⊢
  obtain ⟨b', h⟩ := (write_foiled hcons hn ht).error _ _ hwrite err rfl
  refine ⟨h.records_eq, h.returned.used, h.reads_same hcons (Legible.readsAs ht), fun u hu => ?_,
    b', h.reads, h.opensAlike hcons, fun d hd u hu => ?_⟩
  · refine givesNew_of_numbered ((h.numbered hcons).steps hu.steps) fun c hc => ?_
    exact (h.numbered hcons).lt c (h.held_eq ▸ hc)
  · obtain ⟨-, -, m', E', live', committed', hcons'⟩ := hu.sane (h.sane hcons hn hd)
    have hnumbered : u.records.Numbered u.records.nextId := ⟨UInt32.le_refl _, hcons'.ids_lt⟩
    exact fun _ _ _ hwrite => (id_fresh hnumbered hwrite).2

end Store

/-- A file in which every write stops halfway. Its size is counted apart from its length, and only
writes that are done would count. -/
structure Device.Halfway where
  bytes : ByteArray
  size : Nat

namespace Device.Halfway

instance : Device Halfway where
  read pos len := .within (fun t => ({ bytes := t.bytes } : Memory)) (fun t _ => t)
    (Memory.read pos len)
  write pos data := do
    modify fun t => { t with bytes := Change.apply t.bytes (.write pos (slice data 0 (data.size / 2))) }
    .refuse (.device .incomplete)
  sync := pure ()
  truncate _ := .refuse (.device .incomplete)
  size t := t.size
  readOnly _ := false

variable {t : Halfway} {b : ByteArray}

theorem answers {I : Halfway → Prop} (h : t.bytes = b) (hI : I t) : Answers b I t :=
  fun _ _ hword => ends_within.2 ((Memory.read_legible h hword).mono (fun _ _ hq => ⟨hq.1, hI⟩)
    fun _ _ hf => hf)

theorem readsAs (t : Halfway) : ReadsAs t t.bytes :=
  ⟨fun u => u.bytes = t.bytes, rfl, fun _ hu => answers hu hu⟩

instance : Brittle Halfway where
  Has t b := t.bytes = b ∧ t.size = b.size
  size_eq h := h.2
  read_ends h := answers h.1 h
  read_keeps h := ends_within.2 ((Memory.read_same _ _ _).mono (fun _ _ _ => h) fun _ _ _ => h)
  write_breaks {t b pos data} h := by
    obtain ⟨rfl, -⟩ := h
    have hsize : (slice data 0 (data.size / 2)).size = data.size / 2 := size_slice (by omega)
    refine ends_bind.2 (ends_modify.2 (ends_refuse.2 fun _ _ => ⟨_, readsAs _, ?_⟩))
    exact .of_apply (Nat.le_refl _) (by omega)

end Device.Halfway

namespace Store

/-- A store whose device refuses every write cannot write either. -/
theorem write_refused {δ : Type} [Device δ] {v : Store δ} {cs : List Chunk} {payload : ByteArray}
    (hw : v.engine.readOnly = false) (hid : v.records.nextId.toNat + 1 < UInt32.size)
    (hversion : v.records.version.toNat + 1 < UInt64.size) (hl : Lodged v.engine.occupancy cs)
    (hp : payload.size < UInt32.size)
    (hroom : (v.engine.occupancy.ceiling v.engine.heldBack + Chunk.blocksFor payload.size) *
      blockSize < UInt64.size)
    (hrefuses : ∀ pos data, Ends (Device.write pos data) v.engine.device (fun _ _ => False)
      fun f _ => ∃ err, f = .error err) :
    ∃ err w, write payload v = (.error (.error err), w) := by
  have hends : Ends (write payload) v (fun _ _ => False) fun f _ => ∃ err, f = .error err := by
    refine write_of_place (fun hno => by rw [hw] at hno; cases hno) (fun hle => by omega)
      (fun _ hle => by omega) fun _ _ _ => ?_
    exact (place_returns (A := False) hw hl hp hroom fun _ _ _ _ _ => hrefuses _ _).mono
      (fun _ _ hno => hno.elim) fun _ _ hf => hf.1
  rcases hrun : write payload v with ⟨f | c, w⟩
  · obtain ⟨err, rfl⟩ := hends.error _ _ hrun
    exact ⟨err, w, rfl⟩
  · exact (hends.ok _ _ hrun).elim

/-- The file of a store in memory, if its writes stop halfway from now on. -/
def halfway (v : Store Memory) : Halfway := ⟨v.engine.device.bytes, v.engine.device.bytes.size⟩

/-- What a user asks of a store takes it onward. -/
theorem onward_of_asks {δ : Type} [Device δ] [Faithful δ] {v : Store δ} {s t : Session δ}
    {qs : List Request} (h : s.Asks qs t) (hv : Onward v s.store) : Onward v t.store := by
  induction h with
  | nil => exact hv
  | cons _ hrun _ ih => exact ih (.answered hv hrun)

/-- So it is for a store in memory with a committed chunk, if its next write stops halfway. -/
theorem write_failure_unseen_halfway : ∃ (v : Store Memory) (w : Store Halfway) (err : StoreError),
    Unbroken v ∧ v.records.root.isSome ∧ v.records.data.ids = [1] ∧
    write "payload".toUTF8 (v.on v.halfway) = (.error (.error err), w) ∧
    Unseen Memory (v.on v.halfway) v.engine.device.bytes w := by
  have hs : Settings.Usable {} := ⟨rfl, by decide⟩
  obtain ⟨f, hf, hroot, hids, hspacious⟩ : ∃ f ∈ Forecast.run Bytes.limit [.zeros 10, .commit]
      ⟨.blank {}, {}⟩, f.sketch.records.root.isSome ∧ f.sketch.records.data.ids = [1] ∧
        f.sketch.Spacious Bytes.limit := by decide +kernel
  obtain ⟨u, s, hopen, hasks, rfl⟩ := Session.exists_forecast Session.shows_empty rfl hs
    (fun h => h) (Nat.le_refl _) (by decide) hf
  have hv : Unbroken s.store :=
    ⟨{}, ⟨.empty, []⟩, {}, u, by decide, Session.shows_empty, rfl, hopen, onward_of_asks hasks .refl⟩
  have hreach : Session.Reachable (fun _ => True) s := hasks.reachable (fun _ _ => trivial)
    (.opened (by decide) Session.shows_empty rfl hs hopen)
  obtain ⟨hn, m, E, hcons⟩ := hreach.known
  have hbytes : s.store.engine.device.bytes = m.content := Faithful.bytes_eq hcons.shows
  obtain ⟨⟨hid, hversion⟩, -⟩ := hspacious
  have hp : "payload".toUTF8.size < UInt32.size := by decide
  have ht : Legible.Has s.store.halfway s.store.engine.device.bytes := ⟨rfl, rfl⟩
  obtain ⟨err, w, hrun⟩ := write_refused (v := s.store.on s.store.halfway) rfl
    (Nat.lt_of_le_of_lt (Nat.add_le_add_left (by decide) _) hid)
    (Nat.lt_of_le_of_lt (Nat.add_le_add_left (by decide) _) hversion) hcons.layout.lodged hp
    (hcons.room_on hn (hbytes ▸ ht) hp) fun _ _ =>
      ends_bind.2 (ends_modify.2 (ends_refuse.2 ⟨_, rfl⟩))
  exact ⟨s.store, w, err, hv, hroot, hids, hrun, write_failure_unseen hv ht hrun⟩

end Store

end BlockStore
