import BlockStore.Proofs.Acceptance
import BlockStore.Proofs.Repacking
import BlockStore.Proofs.Session

namespace BlockStore

open BlockStore.Action Engine Device

namespace Store

variable {δ : Type} [Device δ] [Faithful δ] {v w : Store δ} {m : Medium} {E : Edition}
  {live committed : Contents} {settings : Settings}

theorem openAgain_done (h : v.engine.Shows m) (hE : E.Settled m live) :
    Ends (openAgain settings) v (fun _ w => Opened settings m E w) Any := by
  rw [ends_iff, openAgain]
  rcases hopen : openOn settings v.engine.device with ⟨f, d⟩ | w
  · trivial
  · obtain ⟨w', hw', hopened⟩ := openOn_of_read h hE.read_content (usable_of_openOn hopen)
    obtain rfl := Except.ok.inj (hopen.symm.trans hw')
    exact hopened

/-- The stores that come about on an empty file by requests none of which fails. -/
inductive Attained : Store δ → Prop
  | opened {d : δ} {m : Medium} {settings : Settings} {v : Store δ} :
      headerBytes < Lawful.room δ → Lawful.Shows d m → m.content.size = 0 →
      openOn settings d = .ok v → Attained v
  | answered {v w : Store δ} {q : Request} {reply : Reply} :
      Attained v → q.run v = (.ok reply, w) → Attained w

/-- What holds of a store between requests. -/
structure Sane (v : Store δ) : Prop where
  reserved : v.engine.reserved = .nothing
  tidy : v.records.dirty = false → v.records.removed = []
  consistent : ∃ m E live committed, Consistent v m E live committed bare

theorem Opened.sane (h : Opened settings m E w) (hE : E.Settled m live) : Sane w where
  reserved := congrArg Mode.reserved h.mode
  tidy _ := by
    rw [h.records]
    exact hE.sound.isCatalog.removed
  consistent := ⟨m, E, live, live, h.consistent hE⟩

theorem Tended.sane {answered : Bool} (h : Tended v live answered w) (hv : Sane v) : Sane w := by
  cases answered with
  | false =>
    obtain rfl := h
    exact hv
  | true =>
    obtain ⟨hmode, hremoved, m, E, hw⟩ := h
    exact ⟨(congrArg Mode.reserved hmode).trans hv.reserved, fun _ => hremoved, m, E, live, live, hw⟩

end Store

namespace Request

open Store

variable {δ : Type} [Device δ] [Faithful δ] {v w : Store δ} {m : Medium} {E : Edition}
  {live committed : Contents} {q : Request}

/-- Reading changes nothing, whether there is something to read or not. -/
theorem read_done (h : Consistent v m E live committed bare) (id : UInt32) :
    Ends (read id).run v (fun _ w => w.records = v.records ∧ v.engine.Keeps m w.engine) Any := by
  unfold run
  rw [ends_bind, ends_attempt]
  cases hfind : v.records.find? id with
  | none =>
    refine (read_ends_none hfind).mono (fun _ _ => False.elim) ?_
    rintro _ _ ⟨rfl, rfl⟩
    exact ends_pure.2 ⟨rfl, h.shows, rfl, rfl⟩
  | some c =>
    obtain ⟨hmem, -⟩ := (Catalog.find?_eq_some h.ids_nodup).1 hfind
    obtain ⟨p, hp⟩ := h.exists_carries hmem
    refine (read_ends_of_carries h.shows hfind hp).mono ?_ fun _ _ => False.elim
    rintro _ w ⟨rfl, hw⟩
    exact ends_pure.2 hw

/-- Removing a chunk is a matter of the records. -/
theorem remove_done (h : Consistent v m E live committed bare) (id : UInt32) :
    Ends (remove id).run v (fun _ w => Consistent w m E (live.drop id) committed bare ∧
      (w = v ∨ w.engine = v.engine ∧ w.records.dirty = true ∧ w.records.root = v.records.root ∧
        ∀ c ∈ w.records.data.chunks, c ∈ v.records.data.chunks)) Any := by
  unfold run Store.remove
  rw [ends_bind, ends_attempt]
  refine (guardWritable_ends h.shows).bind ?_ fun _ _ => False.elim
  rintro _ _ rfl
  rw [ends_bind, ends_get]
  cases hfind : v.records.data.find? id with
  | none =>
    have hid : live id = none := by
      rw [← Option.not_isSome_iff_eq_none, ← h.stocks.find?_isSome, hfind]
      exact Bool.false_ne_true
    refine ends_refuse.2 (ends_pure.2 ⟨?_, .inl rfl⟩)
    rwa [Contents.drop_of_none hid]
  | some c =>
    obtain ⟨hc, rfl⟩ := Roster.find?_eq_some.1 hfind
    exact ends_modify.2 (ends_pure.2 ⟨h.erase hc, .inr ⟨rfl, rfl, rfl,
      fun d hd => (Roster.mem_erase.1 hd).1⟩⟩)

/-- A compaction leaves the store as it is unless a commit in it answers. -/
theorem compacts_done (hq : q.Compacts) (h : Consistent v m E live committed bare)
    (hn : v.engine.reserved = .nothing) :
    q.toCommit.Ends v (fun answered reply w => reply = .done ∧ Tended v live answered w)
      fun _ => Any := by
  have hdone {p : Halting (Store δ) Bool}
      (h : p.Ends v (fun answered _ => Tended v live answered) fun _ => Any) :
      (do discard p; return Reply.done : Halting (Store δ) Reply).Ends v
        (fun answered reply w => reply = .done ∧ Tended v live answered w) fun _ => Any := by
    refine Halting.ends_bind.2 (Halting.ends_discard.2 (h.mono ?_ fun _ _ _ hf => hf))
    intro answered _ w hw
    cases answered with
    | false => exact Halting.ends_pure.2 ⟨rfl, hw⟩
    | true => exact ends_pure.2 ⟨rfl, hw⟩
  cases q with
  | compact target passBytes => exact hdone (compactToCommit_done h hn)
  | compactAll spare target passBytes => exact hdone (compactAllToCommit_done h hn)
  | maintain spare => exact hdone (maintainToCommit_done h hn)
  | _ => exact hq.elim

/-- No request leaves the store in disorder. -/
theorem run_done (q : Request) (h : Sane v) : Ends q.run v (fun _ => Sane) Any := by
  obtain ⟨hn, htidy, m, E, live, committed, hcons⟩ := id h
  have hcompacts (hq : q.Compacts) : Ends q.run v (fun _ => Sane) Any := by
    have hends := (compacts_done hq hcons hn).finish
    rw [q.finish_toCommit] at hends
    exact hends.mono (fun _ _ hw => hw.2.sane h) fun _ _ hf => hf
  cases q with
  | write payload =>
    refine (write_done hcons).bind ?_ fun _ _ hf => hf
    rintro c w ⟨⟨-, -, hmode, hrecords⟩, hw⟩
    exact ends_pure.2 ⟨(congrArg Mode.reserved hmode).trans hn,
      fun hno => (by rw [hrecords] at hno; cases hno), _, _, _, _, hw⟩
  | read id =>
    refine (read_done hcons id).mono ?_ fun _ _ hf => hf
    rintro _ ⟨e, records⟩ ⟨rfl, k⟩
    exact ⟨(congrArg Mode.reserved k.2.2).trans hn, htidy, _, _, _, _, hcons.of_keeps k⟩
  | remove id =>
    refine (remove_done hcons id).mono ?_ fun _ _ hf => hf
    rintro _ w ⟨hw, rfl | ⟨hengine, hdirty, -, -⟩⟩
    · exact h
    · exact ⟨by rw [hengine, hn], fun hno => (Bool.false_ne_true (hno.symm.trans hdirty)).elim,
        _, _, _, _, hw⟩
  | commit =>
    rw [run, ends_bind, ends_discard]
    refine (commit_done hcons fun b hb => hb.elim).mono ?_ fun _ _ hf => hf
    rintro _ w ⟨hc, root, -, -, hw⟩
    have htended : Tended v live true w := hc.repacked hw
    exact ends_pure.2 (htended.sane h)
  | reopen settings =>
    refine (close_done hcons).bind ?_ fun _ _ hf => hf
    rintro _ v₁ ⟨-, -, -, -, -, m₁, E₁, h₁⟩
    refine (openAgain_done h₁.shows h₁.settled).bind ?_ fun _ _ hf => hf
    exact fun _ w hw => ends_pure.2 (hw.sane h₁.settled)
  | abandon settings =>
    refine (openAgain_done hcons.shows hcons.settled).bind ?_ fun _ _ hf => hf
    exact fun _ w hw => ends_pure.2 (hw.sane hcons.settled)
  | compact target passBytes => exact hcompacts trivial
  | compactAll spare target passBytes => exact hcompacts trivial
  | maintain spare => exact hcompacts trivial

end Request

namespace Store

variable {δ : Type} [Device δ] [Faithful δ] {v w : Store δ} {m : Medium} {E : Edition}
  {live committed : Contents} {settings : Settings}

theorem Attained.sane (h : Attained v) : Sane v := by
  induction h with
  | @opened d m settings v hroom hd hm hopen =>
    rcases openOn_of_empty hd hm (usable_of_openOn hopen) hroom with ⟨w, hw, hopened⟩ | ⟨-, f, hf⟩
    · obtain rfl := Except.ok.inj (hopen.symm.trans hw)
      exact hopened.sane m.settled_created
    · exact nomatch hopen.symm.trans hf
  | answered _ hrun ih => exact (Request.run_done _ ih).ok _ _ hrun

end Store

end BlockStore
