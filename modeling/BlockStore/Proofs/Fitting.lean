import BlockStore.Proofs.Lodging
import BlockStore.Proofs.Orderly
import BlockStore.Proofs.Upkeep

namespace BlockStore

open BlockStore.Action Device Relation

namespace Chunk

/-- The number of blocks that a payload gets is the least that holds it in its frame. -/
theorem isLeast_blocksFor (n : Nat) :
    IsLeast {k | headSize + n + footSize ≤ k * blockSize} (blocksFor n) := by
  simp only [blocksFor, blocksCovering, blockSize]
  refine ⟨?_, fun k hk => ?_⟩
  · rw [Set.mem_ofPred_eq]
    omega
  · rw [Set.mem_ofPred_eq] at hk
    omega

end Chunk

namespace Catalog

/-- The payloads have ids and lengths as in `D`, and the root is no longer than it has to be. -/
structure Shaped (D : List Chunk) (k : Catalog) : Prop where
  orderly : k.Orderly
  data : ∀ c ∈ k.data.chunks, ∃ d ∈ D, c.id = d.id ∧ c.len = d.len
  root : ∀ root, k.root = some root → root.len.toNat = Chunk.blocksFor root.size.toNat

variable {D : List Chunk} {k k' : Catalog}

/-- The root keeps its length when it moves, a new one gets the least, and payloads only move. -/
theorem Upkeep.shaped (h : Upkeep k k') (hk : Shaped D k) : Shaped D k' := by
  obtain ⟨horderly, hdata, hroot⟩ := hk
  cases h with
  | issue hlt => exact ⟨horderly.issue hlt, hdata, hroot⟩
  | @commit root p version hlt hmade =>
    have hnext : (k.nextId + 1).toNat = k.nextId.toNat + 1 := by
      rw [UInt32.toNat_add]
      exact Nat.mod_eq_of_lt hlt
    refine ⟨⟨And.left (horderly.toDistinct.next rfl hnext rfl hmade.id_eq), horderly.len_pos⟩,
      hdata, ?_⟩
    rintro _ ⟨⟩
    rw [hmade.size_eq]
    exact hmade.len_eq
  | @moveRoot c block hc hany =>
    obtain ⟨root, hr, hid⟩ := (Option.any_eq_true _ _).1 hany
    have hid := of_decide_eq_true hid
    have hrc : k.root = some c := by
      have habsent := horderly.root_absent hr
      rw [find?, ← hid, habsent, Option.none_or, Option.filter_eq_some_iff] at hc
      exact hc.1
    refine ⟨⟨horderly.toDistinct.moveRoot hr hid, horderly.len_pos⟩, hdata, ?_⟩
    rintro _ ⟨⟩
    exact hroot c hrc
  | @moveData c block hc hsome =>
    have hfound := data_find?_of_find? hc hsome
    have hmem := (Roster.find?_eq_some.1 hfound).1
    refine ⟨horderly.replace (c := { c with block, next := 0 }) hfound (horderly.len_pos c hmem),
      fun d hd => ?_, hroot⟩
    rcases List.mem_cons.1 ((k.data.insert_perm _).mem_iff.1 hd) with rfl | hd
    · exact hdata c hmem
    · exact hdata d (Roster.mem_erase.1 hd).1

theorem Shaped.upkeep (h : Shaped D k) (hk : ReflTransGen Upkeep k k') : Shaped D k' := by
  induction hk with
  | refl => exact h
  | tail _ hstep ih => exact hstep.shaped ih

end Catalog

/-- No chunk is longer than its payload needs. -/
def Fitted (cs : List Chunk) (contents : Contents) : Prop :=
  ∀ c ∈ cs, ∀ p, contents c.id = some p → c.len.toNat = Chunk.blocksFor p.size

theorem Catalog.Shaped.fitted {cs : List Chunk} {k : Catalog} {contents : Contents}
    (h : k.Shaped cs) (hcs : Fitted cs contents) : Fitted k.data.chunks contents := by
  intro c hc p hp
  obtain ⟨d, hd, hid, hlen⟩ := h.data c hc
  rw [hlen]
  exact hcs d hd p (hid ▸ hp)

namespace Store

variable {δ : Type} [Device δ] [Faithful δ] {v w : Store δ} {m : Medium} {E : Edition}
  {live committed : Contents} {settings : Settings}

/-- What the store holds and what its last commit holds is no longer than it has to be. -/
structure Snug (v : Store δ) (m : Medium) (E : Edition) (live committed : Contents) : Prop
    extends Consistent v m E live committed bare where
  least : ∀ root, v.records.root = some root → root.len.toNat = Chunk.blocksFor root.size.toNat
  fitted : Fitted v.records.data.chunks live
  last : Fitted E.chunks committed

theorem Consistent.shaped (h : Consistent v m E live committed bare)
    (hleast : ∀ root, v.records.root = some root → root.len.toNat = Chunk.blocksFor root.size.toNat) :
    v.records.Shaped v.records.data.chunks where
  orderly := .of_held h.ids_nodup h.ids_lt h.layout.len_pos
  data c hc := ⟨c, hc, rfl, rfl⟩
  root := hleast

/-- The payloads of the last commit still have the lengths they had then. -/
theorem Consistent.fitted_last (h : Consistent v m E live live bare)
    (hremoved : v.records.removed = []) (hfitted : Fitted v.records.data.chunks live) :
    Fitted E.chunks live := by
  intro d hd p hp
  obtain ⟨c, hc, hid, hlen, -⟩ := h.trails d (List.mem_append_left _ hd)
  rw [← hlen]
  rw [Catalog.held, hremoved, List.append_nil] at hc
  rcases List.mem_append.1 hc with hc | hc
  · exact hfitted c hc p (hid ▸ hp)
  · -- The root has an id of its own.
    rw [h.root] at hc
    have hnodup := h.settled.sound.ids_nodup
    rw [Edition.held, List.map_append] at hnodup
    exact absurd hid.symm ((List.nodup_append.1 hnodup).2.2 d.id (List.mem_map_of_mem hd) c.id
      (List.mem_map_of_mem hc))

namespace Snug

variable (h : Snug v m E live committed)

include h

theorem upkeep (hk : ReflTransGen Catalog.Upkeep v.records w.records) :
    w.records.Shaped v.records.data.chunks :=
  (h.toConsistent.shaped h.least).upkeep hk

/-- A commit or a compaction leaves all lengths as they are. -/
theorem repacked (hw : Repacked v live w)
    (hk : ReflTransGen Catalog.Upkeep v.records w.records) :
    ∃ m' E', Snug w m' E' live live := by
  obtain ⟨m', E', hcons⟩ := hw.consistent
  have hshaped := h.upkeep hk
  have hfitted := hshaped.fitted h.fitted
  exact ⟨m', E', hcons, hshaped.root, hfitted, hcons.fitted_last hw.removed hfitted⟩

theorem tended {answered : Bool} (hw : Tended v live answered w)
    (hk : ReflTransGen Catalog.Upkeep v.records w.records) :
    ∃ m' E', Snug w m' E' live (.latest answered committed live) := by
  cases answered with
  | false =>
    obtain rfl := hw
    exact ⟨m, E, h⟩
  | true => exact h.repacked hw hk

theorem closed (hw : Closed v live w)
    (hk : ReflTransGen Catalog.Upkeep v.records w.records) :
    ∃ m' E', Snug w m' E' live live := by
  obtain ⟨m', E', hcons⟩ := hw.consistent
  have hshaped := h.upkeep hk
  have hfitted := hshaped.fitted h.fitted
  refine ⟨m', E', hcons, hshaped.root, hfitted, ?_⟩
  rwa [(hcons.clean hw.dirty).1]

/-- Whoever opens the file finds what was committed. -/
theorem reopened (hw : Opened settings m E w) : Snug w m E committed committed := by
  have hk := h.settled.sound.isCatalog
  rw [← hw.records] at hk
  refine ⟨hw.consistent h.settled, ?_, ?_, h.last⟩
  · rw [hk.root, ← h.toConsistent.root]
    exact h.least
  · rw [hk.data]
    exact h.last

theorem erased {live' : Contents} (hw : Consistent w m E live' committed bare)
    (hroot : w.records.root = v.records.root)
    (hdata : ∀ c ∈ w.records.data.chunks, c ∈ v.records.data.chunks) :
    Snug w m E live' committed := by
  refine ⟨hw, hroot ▸ h.least, fun c hc p hp => ?_, h.last⟩
  obtain ⟨q, hq, hcarries⟩ := h.stocks.carries c (hdata c hc)
  obtain ⟨q', hq', hcarries'⟩ := hw.stocks.carries c hc
  obtain rfl := Option.some.inj (hp.symm.trans hq')
  obtain rfl := (Seals.of_carries hcarries).unique (.of_carries hcarries')
  exact h.fitted c (hdata c hc) q hq

end Snug

end Store

namespace Request

open Store

variable {δ : Type} [Device δ] [Faithful δ] {v : Store δ} {m : Medium} {E : Edition} {l : Ledger}

theorem reopen_snug (settings : Settings) (h : Snug v m E l.live l.committed) :
    (reopen settings).toCommit.Ends v (fun answered _ w =>
      ∃ m E, Snug w m E l.live (.latest answered l.committed l.live)) fun _ => Any := by
  refine Halting.ends_bind.2 ((closeToCommit_done h.toConsistent).of_run.mono ?_ fun _ _ _ hf => hf)
  rintro answered _ v₁ ⟨hrun, hclosed, hlatest⟩
  rw [finish_closeToCommit] at hrun
  obtain ⟨m₁, E₁, h₁⟩ := h.closed hclosed ((close_upkeep v).ok _ _ hrun)
  have hopen : Ends (openAgain settings) v₁ (fun _ w =>
      ∃ m E, Snug w m E l.live (.latest answered l.committed l.live)) Any := by
    rw [hlatest]
    exact (openAgain_done h₁.shows h₁.settled).mono (fun _ w hw => ⟨_, _, h₁.reopened hw⟩)
      fun _ _ hf => hf
  cases answered with
  | false =>
    refine Halting.ends_through_bind.2 (hopen.mono ?_ fun _ _ hf => hf)
    exact fun _ w hw => Halting.ends_pure.2 hw
  | true =>
    rw [Halting.finish_bind, Halting.finish_through, ends_bind]
    exact hopen.mono (fun _ w hw => ends_pure.2 hw) fun _ _ hf => hf

/-- No request makes a chunk longer than it has to be, or loses a payload. -/
theorem run_snug (q : Request) (h : Snug v m E l.live l.committed)
    (hn : v.engine.reserved = .nothing) : q.toCommit.Ends v (fun answered reply w =>
      ∃ m E, Snug w m E (q.live reply l) (.latest answered l.committed l.live)) fun _ => Any := by
  have hcons := h.toConsistent
  have hcompacts (hq : q.Compacts) (hlive : q.live .done l = l.live) :
      q.toCommit.Ends v (fun answered reply w =>
        ∃ m E, Snug w m E (q.live reply l) (.latest answered l.committed l.live)) fun _ => Any := by
    refine (compacts_done hq hcons hn).of_run.mono ?_ fun _ _ _ hf => hf
    rintro answered _ w ⟨hrun, rfl, hw⟩
    have hkept := run_upkeep hq v
    rw [← q.finish_toCommit, hrun] at hkept
    rw [hlive]
    exact h.tended hw hkept
  cases q with
  | write payload =>
    refine Halting.ends_through.2 (((write_done hcons).and (write_step v payload)).bind ?_
      fun _ _ _ => trivial)
    rintro c w ⟨⟨hwritten, hw⟩, hmade, -⟩
    have hrecords := hwritten.records
    refine ends_pure.2 ⟨_, _, hw, ?_, fun d hd p hp => ?_, h.last⟩
    · rw [hrecords]
      exact h.least
    · rw [hrecords] at hd
      change (l.live.put c.id payload) d.id = some p at hp
      rw [Contents.put] at hp
      rcases List.mem_cons.1 ((v.records.data.insert_perm c).mem_iff.1 hd) with rfl | hd
      · rw [if_pos rfl] at hp
        obtain rfl := Option.some.inj hp
        exact hmade.len_eq
      · obtain ⟨hd, hne⟩ := Roster.mem_erase.1 hd
        rw [if_neg hne] at hp
        exact h.fitted d hd p hp
  | read id =>
    refine Halting.ends_through.2 ((read_done hcons id).mono ?_ fun _ _ hf => hf)
    rintro _ ⟨e, records⟩ ⟨rfl, k⟩
    exact ⟨_, _, hcons.of_keeps k, h.least, h.fitted, h.last⟩
  | remove id =>
    refine Halting.ends_through.2 ((remove_done hcons id).mono ?_ fun _ _ hf => hf)
    rintro _ w ⟨hw, rfl | ⟨-, -, hroot, hdata⟩⟩
    · exact ⟨_, _, h.erased hw rfl fun _ hc => hc⟩
    · exact ⟨_, _, h.erased hw hroot hdata⟩
  | commit =>
    refine Halting.ends_upTo_bind.2 (ends_discard.2 ?_)
    refine ((commit_done hcons fun b hb => hb.elim).and (commit_upkeep v)).mono ?_
      fun _ _ _ => trivial
    rintro _ w ⟨⟨hc, root, -, -, hw⟩, hk⟩
    exact ends_pure.2 (h.repacked (hc.repacked hw) hk)
  | reopen settings => exact reopen_snug settings h
  | abandon settings =>
    refine Halting.ends_through.2 ((openAgain_done h.shows h.settled).bind ?_ fun _ _ hf => hf)
    exact fun _ w hw => ends_pure.2 ⟨_, _, h.reopened hw⟩
  | compact target passBytes => exact hcompacts trivial rfl
  | compactAll spare target passBytes => exact hcompacts trivial rfl
  | maintain spare => exact hcompacts trivial rfl

end Request

namespace Session

open Store

variable {δ : Type} [Device δ] [Faithful δ] {s : Session δ}

/-- The sessions that begin with an empty file and whose requests have all been answered. -/
inductive Served : Session δ → Prop
  | opened {d : δ} {m : Medium} {settings : Settings} {v : Store δ} :
      headerBytes < Lawful.room δ → Lawful.Shows d m → m.content.size = 0 →
      openOn settings d = .ok v → Served ⟨v, {}⟩
  | answered {s : Session δ} {q : Request} {reply : Reply} {v : Store δ} :
      Served s → q.run s.store = (.ok reply, v) → Served (s.after q reply v)

theorem Served.attained (h : Served s) : Attained s.store := by
  induction h with
  | opened hroom hd hm hopen => exact .opened hroom hd hm hopen
  | answered _ hrun ih => exact .answered ih hrun

/-- The payloads of the store are those that its user knows of. -/
theorem Served.snug (h : Served s) :
    ∃ m E, Snug s.store m E s.ledger.live s.ledger.committed := by
  induction h with
  | @opened d m settings v hroom hd hm hopen =>
    rcases openOn_of_empty hd hm (usable_of_openOn hopen) hroom with ⟨w, hw, hopened⟩ | ⟨-, f, hf⟩
    · obtain rfl := Except.ok.inj (hopen.symm.trans hw)
      have hrecords : v.records = {} := hopened.records
      refine ⟨_, _, hopened.consistent m.settled_created, ?_, ?_, nofun⟩
      · rw [hrecords]
        exact nofun
      · rw [hrecords]
        exact nofun
    · exact nomatch hopen.symm.trans hf
  | @answered s q reply v hs hrun ih =>
    obtain ⟨m, E, h⟩ := ih
    have hends := (q.run_snug h hs.attained.sane.reserved).finish
    rw [q.finish_toCommit] at hends
    exact hends.ok _ _ hrun

end Session

end BlockStore
