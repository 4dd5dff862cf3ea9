import BlockStore.Proofs.Forecast

namespace BlockStore

open BlockStore.Action Engine Device

theorem Device.Journal.spend_left (f : Medium → Medium) (j : Journal) :
    Ends (spend f) j (fun _ t => t.left + 1 = j.left) Any := by
  unfold spend
  rw [ends_bind, ends_get]
  split
  · exact ends_refuse.2 trivial
  · exact ends_iff.2 (Nat.succ_pred_eq_of_ne_zero ‹_›)

namespace Engine

theorem write_spends (pos : Nat) (data : ByteArray) (e : Engine Journal) :
    Ends (write pos data) e (fun _ e' => e'.device.left + 1 = e.device.left) Any := by
  unfold write onDevice
  rw [ends_bind, ends_within]
  exact (Journal.spend_left _ e.device).mono (fun _ _ hd => ends_modify.2 hd) fun _ _ hf => hf

theorem sync_spends (e : Engine Journal) :
    Ends sync e (fun _ e' => e'.device.left + 1 = e.device.left) Any := by
  unfold sync onDevice
  exact ends_within.2 (Journal.spend_left _ e.device)

theorem place_spends (c : Chunk) (p : ByteArray) (e : Engine Journal) :
    Ends (place c p) e (fun _ e' => e'.device.left + 1 = e.device.left) Any := by
  refine place_of_settle (fun _ _ _ h => h) fun len framed pool _ => ?_
  refine allocateFor_outline.bind ?_ fun _ _ hf => hf
  rintro ⟨placed, framed⟩ _ ⟨-, pos, o, next, -, -, -, rfl⟩
  refine (writeChunk_of_write (write_spends _ framed _)).bind (fun _ e' he => ?_) fun _ _ hf => hf
  exact ends_pure.2 he

end Engine

namespace Store

variable {δ : Type} [Device δ]

/-- The store knows exactly the ids of these payloads, and reads each payload. -/
structure Holds (v : Store δ) (contents : Contents) : Prop where
  mem_ids : ∀ id, id ∈ v.records.data.ids ↔ (contents id).isSome
  read : ∀ id payload, contents id = some payload → ∃ v', Store.read id v = (.ok payload, v')

variable [Lawful δ] {v : Store δ} {m : Medium} {E : Edition} {contents : Contents}
  {settings : Settings}

theorem Opened.holds (h : Opened settings m E v) (hE : E.Read m.content contents) :
    v.Holds contents := by
  have hc := hE.sound.isCatalog
  rw [← h.records] at hc
  have hstocks : Stocks m.content v.records.data.chunks contents := hc.data ▸ hE.backed.stocks
  refine ⟨fun id => hstocks.mem_ids, fun id payload hp => ?_⟩
  obtain ⟨_, v', hrun, rfl, -⟩ := (read_ends_of_stocks h.shows hstocks hp).total
  exact ⟨v', hrun⟩

/-- The root, the superblock, and a sync after each. -/
theorem commit_spends (v : Store Journal) :
    Ends commit v (fun _ _ => 4 ≤ v.engine.device.left) Any := by
  refine commit_of_root (fun _ => trivial) (fun _ => trivial) (fun _ _ => trivial) fun _ _ _ => ?_
  refine (place_spends _ _ _).bind (fun root e₁ h₁ => ?_) fun _ _ hf => hf
  refine (sync_spends e₁).bind (fun _ e₂ h₂ => ?_) fun _ _ hf => hf
  refine (write_spends 0 _ e₂).bind (fun _ e₃ h₃ => ?_) fun _ _ hf => hf
  refine (sync_spends e₃).bind (fun _ e₄ h₄ => ?_) fun _ _ hf => hf
  exact ends_pure.2 (ends_any fun _ _ => by omega)

end Store

namespace Session

/-- The session on a file that lets only so many more calls through. -/
def limited (s : Session Medium) (left : Nat) : Session Journal :=
  ⟨s.store.on ⟨s.store.engine.device, left⟩, s.ledger⟩

theorem Known.limited {s : Session Medium} (h : Known s) (left : Nat) : Known (s.limited left) := by
  obtain ⟨hn, m, E, hcons⟩ := h
  exact ⟨hn, m, E, hcons.of_shows hcons.shows⟩

/-- Where a crash may find a session: between two requests, or within one that the device has
stopped. A commit that has answered within that request is the last one then. -/
inductive Interrupted : Session Journal → Prop
  | between {s : Session Medium} {left : Nat} : Reachable (fun _ => True) s →
      Interrupted (s.limited left)
  | within {s : Session Medium} {left : Nat} {q : Request} {f : Failure} {v : Store Journal} :
      Reachable (fun _ => True) s → q.Fits (s.limited left).store →
      q.run (s.limited left).store = (.error f, v) →
      Interrupted ⟨v, { s.ledger with committed := q.committed (s.limited left).store s.ledger }⟩

variable {s : Session Journal}

theorem Interrupted.safe (h : Interrupted s) : ∃ m, s.store.engine.Shows m ∧
    m.Safe s.store.records.version s.ledger.committed s.ledger.live := by
  cases h with
  | @between s left hs =>
    obtain ⟨-, m, E, hcons⟩ := hs.known.limited left
    exact ⟨m, hcons.shows, hcons.settled.safe _ _⟩
  | @within s left q f v hs hfits hrun =>
    obtain ⟨-, hcut⟩ := ((hs.known.limited left).run_ends hfits).error _ _ hrun
    exact hcut

/-- However many calls a file lets through, what a crash then leaves of it opens as the store of the
last commit or, while the superblock of the next one is on its way, as the store of that one. -/
theorem crash_recovers (h : Interrupted s) {b : ByteArray}
    (hb : s.store.engine.device.medium.CrashImage b) {settings : Settings} (hs : settings.Usable) :
    ∃ w : Store Memory, Store.openOn settings { bytes := b } = .ok w ∧
      (w.Holds s.ledger.committed ∨
        s.store.engine.device.medium.Publishing s.store.records.version ∧ w.Holds s.ledger.live) := by
  obtain ⟨m, ⟨rfl, hbelow⟩, hsafe⟩ := h.safe
  have hshows : Lawful.Shows ({ bytes := b } : Memory) ⟨b, []⟩ :=
    ⟨rfl, rfl, hbelow.crashImage hb⟩
  have hopen {contents : Contents} (hrec : Recovers b contents) : ∃ w : Store Memory,
      Store.openOn settings { bytes := b } = .ok w ∧ w.Holds contents := by
    obtain ⟨E, hE⟩ := hrec
    obtain ⟨w, hw, hopened⟩ := Store.openOn_of_read hshows hE hs
    exact ⟨w, hw, hopened.holds hE⟩
  rcases hsafe b hb with hrec | ⟨hpub, hrec⟩
  · obtain ⟨w, hw, hholds⟩ := hopen hrec
    exact ⟨w, hw, .inl hholds⟩
  · obtain ⟨w, hw, hholds⟩ := hopen hrec
    exact ⟨w, hw, .inr ⟨hpub, hholds⟩⟩

/-- So it is when the second commit is stopped with the superblock on its way. -/
theorem crash_recovers_interrupted_commit :
    ∃ (s : Session Medium) (f : Failure) (v : Store Journal), Reachable (fun _ => True) s ∧
    s.ledger.committed 1 = some (Bytes.ofList [7]) ∧
    s.ledger.committed 3 = none ∧ s.ledger.live 3 = some (Bytes.ofList [8]) ∧
    Request.commit.run (s.limited 3).store = (.error f, v) ∧
    ∀ b, v.engine.device.medium.CrashImage b → ∃ w : Store Memory,
      Store.openOn {} { bytes := b } = .ok w ∧ (w.Holds s.ledger.committed ∨
        v.engine.device.medium.Publishing v.records.version ∧ w.Holds s.ledger.live) := by
  have husable : Settings.Usable {} := ⟨rfl, by decide⟩
  have hshows : Lawful.Shows (⟨.empty, []⟩ : Medium) ⟨.empty, []⟩ := ⟨rfl, by decide, nofun⟩
  obtain ⟨f, hf, hspacious, hone, hthree, hlive⟩ : ∃ f ∈ Forecast.run Bytes.limit
      [.write (Bytes.ofList [7]) 1 rfl, .commit, .write (Bytes.ofList [8]) 1 rfl]
      ⟨.blank {}, {}⟩, f.sketch.Spacious Bytes.limit ∧
        f.ledger.committed 1 = some (Bytes.ofList [7]) ∧ f.ledger.committed 3 = none ∧
        f.ledger.live 3 = some (Bytes.ofList [8]) := by decide +kernel
  obtain ⟨u, s, hopen, hasks, rfl⟩ := exists_forecast hshows rfl husable (fun h => h)
    (Nat.le_refl _) (by decide) hf
  have hs := hasks.reachable (fun _ _ => trivial) (.opened (by decide) hshows rfl husable hopen)
  have hfits : Request.commit.Fits (s.limited 3).store :=
    Store.spacious_of_sketch (Nat.le_refl _) hspacious
  have hstopped : Ends Request.commit.run (s.limited 3).store (fun _ _ => False)
      fun _ _ => Request.commit.committed (s.limited 3).store s.ledger = s.ledger.committed := by
    have hspends : Ends Request.commit.run (s.limited 3).store (fun _ _ => 4 ≤ 3) Any :=
      (Store.commit_spends _).discard.bind (fun _ _ h => ends_pure.2 h) fun _ _ hf => hf
    refine (hspends.and Request.commit_halts).mono (fun _ _ h => absurd h.1 (by decide)) ?_
    rintro _ _ ⟨-, hhalts⟩
    rw [Request.committed, hhalts]
    rfl
  rcases hrun : Request.commit.run (s.limited 3).store with ⟨f | reply, v⟩
  · have hledger := hstopped.error f v hrun
    refine ⟨s, f, v, hs, hone, hthree, hlive, hrun, fun b hb => ?_⟩
    have hrecovers := crash_recovers (.within hs hfits hrun) hb husable
    rwa [hledger] at hrecovers
  · exact (hstopped.ok reply v hrun).elim

end Session

end BlockStore
