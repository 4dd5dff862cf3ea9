import BlockStore.Proofs.Compaction

namespace BlockStore

/-- What a user may ask of a store. -/
inductive Request
  | write (payload : ByteArray)
  | read (id : UInt32)
  | remove (id : UInt32)
  | commit
  | compact (target passBytes : Nat)
  | compactAll (spare target passBytes : Nat)
  | maintain (spare : Nat)
  /-- The store is closed, and its file opened again. -/
  | reopen (settings : Settings)
  /-- The file is opened again without the store having been closed. -/
  | abandon (settings : Settings)

inductive Reply
  | written (id : UInt32)
  | data (payload : Except StoreError ByteArray)
  | removed (outcome : Except StoreError Unit)
  | done

/-- The payloads that a user knows to be in a store, those of its last commit, and all ids that were
ever returned. -/
structure Ledger where
  live : Contents := fun _ => none
  committed : Contents := fun _ => none
  issued : List UInt32 := []

/-- A store in use, and what its user knows. -/
structure Session (δ : Type) where
  store : Store δ
  ledger : Ledger := {}

namespace Store

open BlockStore.Action Engine Device Bytes

/-- The store on another device. -/
def on {δ δ' : Type} (v : Store δ') (device : δ) : Store δ :=
  ⟨{ v.engine with device }, v.records⟩

variable {δ : Type} [Device δ]

/-- Opens the file of a store that is no longer used. -/
def openAgain (settings : Settings) : Action (Store δ) Unit := fun v =>
  match openOn settings v.engine.device with
  | .ok w => (.ok (), w)
  | .error (f, device) => (.error f, { v with engine := { v.engine with device } })

variable [Lawful δ] {v w : Store δ} {m : Medium} {E : Edition} {contents live committed : Contents}
  {settings : Settings}

/-- Whichever device stands for the file makes no difference. -/
theorem Consistent.of_shows {δ' : Type} [Device δ'] [Lawful δ'] {shield : Nat → Prop} {d : δ'}
    (h : Consistent v m E live committed shield) (hd : Lawful.Shows d m) :
    Consistent (v.on d) m E live committed shield :=
  { h with shows := hd }

/-- On a file with a durable edition, a store that has just read it has committed all it knows. -/
theorem Opened.consistent (h : Opened settings m E w) (hE : E.Settled m contents) :
    Consistent w m E contents contents bare := by
  have hc := hE.sound.isCatalog
  rw [← h.records] at hc
  have hheld := hc.held_eq
  have hread := hE.read_content
  have hlayout : Layout w.engine.occupancy w.records.held := hheld ▸ h.layout
  refine ⟨h.shows, hlayout, hheld ▸ hE.sound.ids_nodup, fun c hc' => ?_, hc.data ▸ hE.sound.plain,
    ?_, hc.data ▸ hread.backed.stocks, hE, fun d hd => ⟨d, hheld ▸ hd, rfl, rfl, .inl rfl⟩, hc.root,
    hc.version,
    fun _ => ⟨hc.data.symm, hc.nextId.symm, rfl⟩⟩
  · rw [hc.nextId]
    exact hE.sound.ids_lt c (hheld ▸ hc')
  · have hle : w.engine.occupancy.stop ≤ m.content.size / blockSize := by
      refine Occupancy.stop_le fun b hb => ?_
      refine (Nat.le_div_iff_mul_le (by decide)).2 ?_
      rcases (h.layout.mem_used b).1 hb with hb | ⟨c, hc', hb⟩
      · exact Nat.le_trans (Nat.mul_le_mul_right _ hb) hread.headerBytes_le
      · exact Nat.le_trans (Nat.mul_le_mul_right _ hb.2) (hread.backed.after_le hc')
    exact (Nat.le_div_iff_mul_le (by decide)).1 hle

/-- A new store has room on every device of some size. -/
theorem Opened.spacious (h : Opened settings m.created .blank w) (hm : m.content.size = 0)
    (hroom : 34359738368 ≤ Lawful.room δ) : Spacious w := by
  have hextent : w.extent = headerBlocks := by
    rw [extent, size_eq h.shows, Medium.created, Medium.content_sync, Medium.content_change,
      Change.size_apply_write, hm, Superblock.size_toBytes]
    rfl
  have hblocks : Chunk.maxBlocks = 1048577 := by decide
  have hrecords : w.records = {} := h.records
  refine ⟨by rw [hrecords]; decide, by rw [hrecords]; decide, by rw [hrecords]; decide, ?_, ?_⟩
  · rw [hextent, hblocks]
    exact Nat.lt_of_lt_of_le (by decide) hroom
  · rw [hextent, hblocks]
    decide

theorem openAgain_ends (h : v.engine.Shows m) (hE : E.Settled m contents) (hs : settings.Usable) :
    Ends (openAgain settings) v (fun _ w => w.engine.reserved = .nothing ∧
      w.records.nextId = E.nextId ∧ w.records.version = E.version ∧
      Consistent w m E contents contents bare) fun _ _ => False := by
  obtain ⟨w, hopen, hw⟩ := openOn_of_read h hE.read_content hs
  have hc := hE.sound.isCatalog
  rw [← hw.records] at hc
  rw [ends_iff, openAgain, hopen]
  exact ⟨congrArg Mode.reserved hw.mode, hc.nextId, hc.version, hw.consistent hE⟩

end Store

namespace Request

open BlockStore.Action Engine Device Store

variable {δ : Type} [Device δ]

def run : Request → Action (Store δ) Reply
  | write payload => do return .written (← Store.write payload).id
  | read id => do return .data (← (Store.read id).attempt)
  | remove id => do return .removed (← (Store.remove id).attempt)
  | commit => do
    discard Store.commit
    return .done
  | compact target passBytes => do
    discard (Store.compact target passBytes)
    return .done
  | compactAll spare target passBytes => do
    discard (Store.compactAll spare target passBytes)
    return .done
  | maintain spare => do
    discard (Store.maintain spare)
    return .done
  | reopen settings => do
    Store.close
    Store.openAgain settings
    return .done
  | abandon settings => do
    Store.openAgain settings
    return .done

/-- The request, halted once a commit in it has answered. -/
def toCommit : Request → Halting (Store δ) Reply
  | write payload => .through (run (write payload))
  | read id => .through (run (read id))
  | remove id => .through (run (remove id))
  | commit => do
    .upTo (discard Store.commit)
    return .done
  | compact target passBytes => do
    discard (compactToCommit target passBytes)
    return .done
  | compactAll spare target passBytes => do
    discard (compactAllToCommit spare target passBytes)
    return .done
  | maintain spare => do
    discard (maintainToCommit spare)
    return .done
  | reopen settings => do
    closeToCommit
    .through (Store.openAgain settings)
    return .done
  | abandon settings => .through (run (abandon settings))

theorem finish_toCommit (q : Request) : (q.toCommit : Halting (Store δ) Reply).finish = q.run := by
  cases q <;> simp [toCommit, run]

/-- The payloads that the store holds after an answer. -/
def live : Request → Reply → Ledger → Contents
  | write payload, .written id, l => l.live.put id payload
  | remove id, _, l => l.live.drop id
  | abandon _, _, l => l.committed
  | _, _, l => l.live

/-- The payloads of the last commit after a request. Those of the store have been committed if a commit
within the request has answered, though the request itself may have failed since. -/
def committed (q : Request) (v : Store δ) (l : Ledger) : Contents :=
  .latest (q.toCommit.halts v) l.committed l.live

/-- The answer of a map from ids to payloads, in which the root of the records has a place too. -/
def Answered (l : Ledger) (root : Option Chunk) : Request → Reply → Prop
  | write _, reply => ∃ id, reply = .written id ∧ id ∉ l.issued
  | read id, reply =>
    (∀ payload, l.live id = some payload → reply = .data (.ok payload)) ∧
    (l.live id = none → (∀ c, root = some c → c.id ≠ id) →
      reply = .data (.error (.chunkNotFound id)))
  | remove id, reply =>
    reply = .removed (if (l.live id).isSome then .ok () else .error (.chunkNotFound id))
  | _, reply => reply = .done

/-- No commit is lost on purpose. -/
def Orderly : Request → Prop
  | abandon _ => False
  | _ => True

/-- The requests that leave the file open. -/
def Stays : Request → Prop
  | reopen _ | abandon _ => False
  | _ => True

/-- The requests for a compaction. -/
def Compacts : Request → Prop
  | compact _ _ | compactAll _ _ _ | maintain _ => True
  | _ => False

variable [Lawful δ]

/-- The numbers of the request, and of the store before it, are below their limits. -/
def Fits : Request → Store δ → Prop
  | write payload, v => Spacious v ∧ payload.size < UInt32.size
  | compactAll spare target passBytes, v => Spacious.Passes target passBytes spare v
  | maintain spare, v => Spacious.Passes v.engine.settings.compactBelow v.engine.settings.passBytes
      spare v
  | reopen settings, v => Spacious v ∧ settings.Usable
  | abandon settings, _ => settings.Usable
  | _, v => Spacious v

/-- What a request leads to that the device lets through, given whether a commit in it has answered. -/
structure Kept (q : Request) (l : Ledger) (v : Store δ) (done : Bool) (reply : Reply)
    (v' : Store δ) : Prop where
  reserved : v'.engine.reserved = .nothing
  consistent : ∃ m E, Consistent v' m E (q.live reply l) (.latest done l.committed l.live) bare
  counts : Counts done v v'
  answered : (∀ id ∈ l.issued, id < v.records.nextId) → q.Answered l v.records.root reply
  nextId_le : q.Orderly → v.records.nextId ≤ v'.records.nextId
  written : ∀ id, reply = .written id → id < v'.records.nextId

variable {v : Store δ} {m : Medium} {E : Edition} {l : Ledger} {done : Bool}

theorem Kept.of_packed {q : Request} {v' : Store δ} (hn : v.engine.reserved = .nothing)
    (hlive : q.live .done l = l.live) (hq : q.Answered l v.records.root .done)
    (h : Packed v l.committed l.live done v') : Kept q l v done .done v' :=
  ⟨(congrArg Mode.reserved h.advanced.mode).trans hn, hlive ▸ h.consistent, h.counts, fun _ => hq,
    fun _ => h.advanced.nextId_le, nofun⟩

theorem write_ends {payload : ByteArray} (h : Consistent v m E l.live l.committed bare)
    (hn : v.engine.reserved = .nothing) (hq : Fits (write payload) v) :
    Ends (write payload).run v (Kept (write payload) l v false) (CutOff l.committed l.live) := by
  obtain ⟨hs, hp⟩ := hq
  have hceil := h.ceiling_le hn
  have hblocks := Chunk.blocksFor_le hp
  have hroom := hs.ample.room
  have hid := hs.nextId
  refine (Store.write_ends h (by omega) (by have := hs.version; omega) hp (by
    simp only [mul_blockSize] at *
    omega)).bind ?_ fun _ _ hf => hf
  rintro c v' ⟨hcid, hmode, hnext, hversion, m', hv'⟩
  refine ends_pure.2 ⟨(congrArg Mode.reserved hmode).trans hn, ⟨m', E, hv'⟩, hversion,
    fun hissued => ?_, fun _ => ?_, ?_⟩
  · exact ⟨c.id, rfl, fun hmem => UInt32.lt_irrefl _ (hcid ▸ hissued c.id hmem)⟩
  · rw [hnext]
    exact UInt32.le_of_lt (self_lt_succ_id (by omega))
  · rintro _ ⟨⟩
    rw [hnext, hcid]
    exact self_lt_succ_id (by omega)

/-- A request that changes no records. -/
theorem Kept.of_keeps {q : Request} {reply : Reply} {e' : Engine δ}
    (h : Consistent v m E l.live l.committed bare) (hn : v.engine.reserved = .nothing)
    (k : v.engine.Keeps m e') (hlive : q.live reply l = l.live)
    (hq : q.Answered l v.records.root reply) (hreply : ∀ id, reply ≠ .written id) :
    Kept q l v false reply ⟨e', v.records⟩ :=
  ⟨(congrArg Mode.reserved k.2.2).trans hn, ⟨m, E, hlive ▸ h.of_keeps k⟩, rfl, fun _ => hq,
    fun _ => UInt32.le_refl _, fun id hid => absurd hid (hreply id)⟩

theorem read_ends (h : Consistent v m E l.live l.committed bare)
    (hn : v.engine.reserved = .nothing) (id : UInt32) :
    Ends (read id).run v (Kept (read id) l v false) (CutOff l.committed l.live) := by
  have hquiet : v.engine.Keeps m v.engine := ⟨h.shows, rfl, rfl⟩
  unfold run
  rw [ends_bind, ends_attempt]
  cases hp : l.live id with
  | some p =>
    refine (read_ends_of_stocks h.shows h.stocks hp).mono ?_ fun _ _ => False.elim
    rintro _ ⟨e', _⟩ ⟨rfl, rfl, k⟩
    refine ends_pure.2 (.of_keeps h hn k rfl ⟨fun q hq => ?_, fun hq => ?_⟩ nofun)
    · rw [Option.some.inj (hp.symm.trans hq)]
    · exact nomatch hp.symm.trans hq
  | none =>
    cases hfind : v.records.find? id with
    | none =>
      refine (read_ends_none hfind).mono (fun _ _ => False.elim) ?_
      rintro _ _ ⟨rfl, rfl⟩
      exact ends_pure.2 (.of_keeps h hn hquiet rfl
        ⟨fun q hq => (nomatch hp.symm.trans hq), fun _ _ => rfl⟩ nofun)
    | some c =>
      -- The one record that is not a user's is the root.
      obtain ⟨hmem, hid⟩ := (Catalog.find?_eq_some h.ids_nodup).1 hfind
      rcases h.carries_of_mem hmem with ⟨-, p, hlive, -⟩ | ⟨hroot, hcarries⟩
      · rw [hid, hp] at hlive
        exact nomatch hlive
      · refine (read_ends_of_carries h.shows hfind hcarries).mono ?_ fun _ _ => False.elim
        rintro _ ⟨e', _⟩ ⟨rfl, rfl, k⟩
        exact ends_pure.2 (.of_keeps h hn k rfl
          ⟨fun q hq => (nomatch hp.symm.trans hq), fun _ hne => absurd hid (hne c hroot)⟩ nofun)

theorem remove_ends (h : Consistent v m E l.live l.committed bare)
    (hn : v.engine.reserved = .nothing) (id : UInt32) :
    Ends (remove id).run v (Kept (remove id) l v false) (CutOff l.committed l.live) := by
  unfold run
  rw [ends_bind, ends_attempt]
  cases hp : l.live id with
  | some p =>
    refine (Store.remove_ends h hp).mono ?_ fun _ _ => False.elim
    rintro _ v' ⟨hengine, hnext, hversion, hv'⟩
    refine ends_pure.2 ⟨by rw [hengine, hn], ⟨m, E, hv'⟩, hversion, fun _ => ?_, fun _ => ?_,
      fun _ hid => by cases hid⟩
    · rw [Answered, hp]
      rfl
    · rw [hnext]
      exact UInt32.le_refl _
  | none =>
    refine (remove_ends_not_found h hp).mono (fun _ _ => False.elim) ?_
    rintro _ _ ⟨rfl, rfl⟩
    refine ends_pure.2 (.of_keeps h hn ⟨h.shows, rfl, rfl⟩ (Contents.drop_of_none hp) ?_
      fun _ hid => by cases hid)
    rw [Answered, hp]
    rfl

theorem abandon_ends {settings : Settings} (h : Consistent v m E l.live l.committed bare)
    (hq : Fits (abandon settings) v) :
    Ends (abandon settings).run v (Kept (abandon settings) l v false) (CutOff l.committed l.live) := by
  refine (openAgain_ends h.shows h.settled hq).bind ?_ fun _ _ => False.elim
  rintro _ w ⟨hn, -, hversion, hw⟩
  exact ends_pure.2 ⟨hn, ⟨m, E, hw⟩, hversion.trans h.version.symm, fun _ => rfl, False.elim, nofun⟩

theorem reopen_ends {settings : Settings} (h : Consistent v m E l.live l.committed bare)
    (hn : v.engine.reserved = .nothing) (hq : Fits (reopen settings) v) :
    (reopen settings).toCommit.Ends v (Kept (reopen settings) l v)
      fun done => CutOff (.latest done l.committed l.live) l.live := by
  refine Halting.ends_bind.2 ((closeToCommit_ends h hn hq.1).mono ?_ fun _ _ _ hf => hf)
  rintro done _ v₁ ⟨hadv, hcounts, hdirty, hlatest, m₁, E₁, -, h₁⟩
  have hopen : Ends (openAgain settings) v₁ (fun _ w => Kept (reopen settings) l v done .done w)
      fun _ _ => False := by
    refine (openAgain_ends h₁.shows h₁.settled hq.2).mono ?_ fun _ _ => False.elim
    rintro _ w ⟨hn', hnext, hversion, hw⟩
    have hsame : v₁.records.version = w.records.version := h₁.version.trans hversion.symm
    refine ⟨hn', ⟨m₁, E₁, ?_⟩, hcounts.of_version hsame, fun _ => rfl, fun _ => ?_,
      fun _ hid => by cases hid⟩
    · rw [hlatest]
      exact hw
    · rw [hnext, (h₁.clean hdirty).2.1]
      exact hadv.nextId_le
  cases done with
  | false =>
    refine Halting.ends_through_bind.2 (hopen.mono ?_ fun _ _ => False.elim)
    exact fun _ w hw => Halting.ends_pure.2 hw
  | true =>
    rw [Halting.finish_bind, Halting.finish_through, ends_bind]
    exact hopen.mono (fun _ w hw => ends_pure.2 hw) fun _ _ => False.elim

/-- A compaction of whatever kind, of which the user is told no more than that it is done. -/
theorem packed_ends {q : Request} {p : Halting (Store δ) Bool} (hn : v.engine.reserved = .nothing)
    (hlive : q.live .done l = l.live) (hq : q.Answered l v.records.root .done)
    (h : p.Ends v (fun done _ => Packed v l.committed l.live done)
      fun done => CutOff (.latest done l.committed l.live) l.live) :
    (do discard p; return Reply.done : Halting (Store δ) Reply).Ends v (Kept q l v)
      fun done => CutOff (.latest done l.committed l.live) l.live := by
  refine Halting.ends_bind.2 (Halting.ends_discard.2 (h.mono ?_ fun _ _ _ hf => hf))
  intro done _ v' hv'
  cases done with
  | false => exact Halting.ends_pure.2 (.of_packed hn hlive hq hv')
  | true => exact ends_pure.2 (.of_packed hn hlive hq hv')

omit [Lawful δ] in
/-- A commit gets as far as its halt if it is answered. -/
theorem commit_halts : Ends commit.run v (fun _ _ => commit.toCommit.halts v = true)
    fun _ _ => commit.toCommit.halts v = false := by
  have h : commit.toCommit.Ends v (fun done _ _ => done = true) fun done _ _ => done = false :=
    Halting.ends_upTo_bind.2 (ends_discard.2 ⟨fun _ _ _ => ends_pure.2 rfl, fun _ _ _ => rfl⟩)
  rw [← finish_toCommit]
  exact h.finish

/-- Whatever is asked of a store, it keeps to what its user knows. -/
theorem run_ends (q : Request) (h : Consistent v m E l.live l.committed bare)
    (hn : v.engine.reserved = .nothing) (hq : q.Fits v) :
    q.toCommit.Ends v (Kept q l v) fun done => CutOff (.latest done l.committed l.live) l.live := by
  cases q with
  | write payload => exact Halting.ends_through.2 (write_ends h hn hq)
  | read id => exact Halting.ends_through.2 (read_ends h hn id)
  | remove id => exact Halting.ends_through.2 (remove_ends h hn id)
  | reopen settings => exact reopen_ends h hn hq
  | abandon settings => exact Halting.ends_through.2 (abandon_ends h hq)
  | compact target passBytes => exact packed_ends hn rfl rfl (compactToCommit_ends h hn hq)
  | compactAll spare target passBytes =>
    exact packed_ends hn rfl rfl (compactAllToCommit_ends h hn hq)
  | maintain spare => exact packed_ends hn rfl rfl (maintainToCommit_ends h hn hq)
  | commit =>
    refine Halting.ends_upTo_bind.2 (ends_discard.2 ?_)
    refine (commit_ends h (h.canCommit hn hq) fun b hb => hb.elim).mono ?_ fun _ _ hf => hf
    rintro _ v' ⟨hc, -, hv'⟩
    exact ends_pure.2 (.of_packed hn rfl rfl
      ⟨hc.advanced hq.roomy, hc.version_lt hq.roomy, hv'⟩)

end Request

namespace Session

open BlockStore.Action Engine Device Store

variable {δ : Type} [Device δ]

/-- The user notes an answer. -/
def after (s : Session δ) (q : Request) (reply : Reply) (v : Store δ) : Session δ where
  store := v
  ledger := {
    live := q.live reply s.ledger
    committed := q.committed s.store s.ledger
    issued := match reply with
      | .written id => id :: s.ledger.issued
      | _ => s.ledger.issued }

variable [Lawful δ]

/-- The sessions that begin with an empty file and consist of allowed requests that the device let
through. -/
inductive Reachable (allowed : Request → Prop) : Session δ → Prop
  | opened {d : δ} {m : Medium} {settings : Settings} {v : Store δ} :
      headerBytes < Lawful.room δ → Lawful.Shows d m → m.content.size = 0 → settings.Usable →
      openOn settings d = .ok v → Reachable allowed ⟨v, {}⟩
  | answered {s : Session δ} {q : Request} {reply : Reply} {v : Store δ} :
      Reachable allowed s → allowed q → q.Fits s.store → q.run s.store = (.ok reply, v) →
      Reachable allowed (s.after q reply v)

/-- The store is as its user believes. -/
structure Known (s : Session δ) : Prop where
  reserved : s.store.engine.reserved = .nothing
  consistent : ∃ m E, Consistent s.store m E s.ledger.live s.ledger.committed bare

variable {s : Session δ} {allowed : Request → Prop} {d : δ} {m : Medium} {settings : Settings}
  {v : Store δ} {q : Request} {reply : Reply}

theorem known_of_opened (hroom : headerBytes < Lawful.room δ) (hd : Lawful.Shows d m)
    (hm : m.content.size = 0) (hs : settings.Usable) (hopen : openOn settings d = .ok v) :
    Known ⟨v, {}⟩ := by
  rcases openOn_of_empty hd hm hs hroom with ⟨w, hw, hopened⟩ | ⟨-, failed, hfailed⟩
  · obtain rfl := Except.ok.inj (hopen.symm.trans hw)
    exact ⟨congrArg Mode.reserved hopened.mode, _, _, hopened.consistent m.settled_created⟩
  · exact nomatch hopen.symm.trans hfailed

theorem Known.run_ends (h : Known s) (hq : q.Fits s.store) :
    Ends q.run s.store (q.Kept s.ledger s.store (q.toCommit.halts s.store))
      (CutOff (q.committed s.store s.ledger) s.ledger.live) := by
  obtain ⟨hn, m, E, hcons⟩ := h
  rw [← q.finish_toCommit]
  exact (q.run_ends hcons hn hq).finish

theorem Known.after (h : Known s) (hq : q.Fits s.store) (hrun : q.run s.store = (.ok reply, v)) :
    Known (s.after q reply v) := by
  have hkept := (h.run_ends hq).ok _ _ hrun
  exact ⟨hkept.reserved, hkept.consistent⟩

theorem Reachable.mono {more : Request → Prop} (h : Reachable allowed s)
    (hmore : ∀ q, allowed q → more q) : Reachable more s := by
  induction h with
  | opened hroom hd hm hs hopen => exact .opened hroom hd hm hs hopen
  | answered _ hq hfits hrun ih => exact .answered ih (hmore _ hq) hfits hrun

theorem Reachable.known (h : Reachable allowed s) : Known s := by
  induction h with
  | opened hroom hd hm hs hopen => exact known_of_opened hroom hd hm hs hopen
  | answered hs hallowed hfits hrun ih => exact ih.after hfits hrun

/-- The version rises just when a commit has answered. -/
theorem Reachable.version_lt_iff (h : Reachable allowed s) (hq : q.Fits s.store)
    (hrun : q.run s.store = (.ok reply, v)) :
    s.store.records.version < v.records.version ↔ q.toCommit.halts s.store = true := by
  have hcounts := ((h.known.run_ends hq).ok _ _ hrun).counts
  unfold Counts at hcounts
  split at hcounts
  · next hhalts => exact iff_of_true hcounts hhalts
  · next hhalts =>
    rw [hcounts, hhalts]
    exact iff_of_false (UInt64.lt_irrefl _) Bool.false_ne_true

/-- As long as no commit is lost, the ids to come are above those that were returned. -/
theorem Reachable.issued_lt (h : Reachable Request.Orderly s) :
    ∀ id ∈ s.ledger.issued, id < s.store.records.nextId := by
  induction h with
  | opened => exact nofun
  | @answered s q reply v hs hallowed hfits hrun ih =>
    have hkept := (hs.known.run_ends hfits).ok _ _ hrun
    intro id hid
    have hold (hid : id ∈ s.ledger.issued) : id < v.records.nextId :=
      UInt32.lt_of_lt_of_le (ih id hid) (hkept.nextId_le hallowed)
    cases reply with
    | written new =>
      rcases List.mem_cons.1 hid with rfl | hid
      · exact hkept.written id rfl
      · exact hold hid
    | data payload => exact hold hid
    | removed outcome => exact hold hid
    | done => exact hold hid

/-- On an empty file of some room a session can begin. -/
theorem exists_opened_on (hd : Lawful.Shows d m) (hm : m.content.size = 0) (hs : settings.Usable)
    (hfails : ¬Lawful.fails δ) (hroom : 34359738368 ≤ Lawful.room δ) :
    ∃ v, openOn settings d = .ok v ∧ Reachable allowed ⟨v, {}⟩ ∧ Spacious v ∧
      v.Opened settings m.created .blank := by
  have hheader : headerBytes < Lawful.room δ := Nat.lt_of_lt_of_le (by decide) hroom
  obtain ⟨v, hv, hopened⟩ := (openOn_of_empty hd hm hs hheader).resolve_right fun h => hfails h.1
  exact ⟨v, hv, .opened hheader hd hm hs hv, hopened.spacious hm hroom, hopened⟩

theorem shows_empty : Lawful.Shows ({} : Memory) ⟨.empty, []⟩ := ⟨rfl, rfl, by decide⟩

/-- A new store in memory. -/
theorem exists_opened (allowed : Request → Prop) : ∃ v : Store Memory,
    Reachable allowed (⟨v, {}⟩ : Session Memory) ∧ Spacious v ∧
      v.Opened {} (Medium.created ⟨.empty, []⟩) .blank := by
  have husable : Settings.Usable {} := ⟨rfl, by decide⟩
  obtain ⟨v, -, hv⟩ := exists_opened_on shows_empty rfl husable (fun h => h) (by decide)
  exact ⟨v, hv⟩

end Session

end BlockStore
