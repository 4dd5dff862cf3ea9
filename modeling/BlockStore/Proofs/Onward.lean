import BlockStore.Proofs.DirtyFlag

namespace BlockStore

open BlockStore.Action Engine Device

/-- The request is to store more than a chunk can hold. -/
def Request.Oversized {δ : Type} (q : Request) (v : Store δ) : Prop :=
  match q with
  | .write payload => UInt32.size ≤ payload.size
  | .commit => UInt32.size ≤ v.records.nextBytes.size
  | _ => False

theorem Engine.place_oversized {δ : Type} [Device δ] {e : Engine δ} {c : Chunk} {p : ByteArray}
    (hp : UInt32.size ≤ p.size) :
    Ends (place c p) e (fun _ _ => False) fun _ e' => e' = e := by
  unfold place
  rw [ends_bind]
  refine ends_checked_iff.2 ⟨fun len _ => ?_, fun _ _ => rfl⟩
  rw [if_pos hp, ends_bind]
  exact ends_refuse.2 rfl

namespace Store

section

variable {δ : Type} [Device δ] {v : Store δ} {payload : ByteArray}

/-- At most an id is lost to what cannot be stored. -/
def Spared (v w : Store δ) : Prop :=
  w = v ∨ v.records.nextId.toNat + 1 < UInt32.size ∧ w = v.skipped

theorem write_oversized (hp : UInt32.size ≤ payload.size) :
    Ends (write payload) v (fun _ _ => False) fun _ w => Spared v w := by
  refine write_of_place (fun _ => .inl rfl) (fun _ => .inl rfl) (fun hlt _ => .inr ⟨hlt, rfl⟩)
    fun _ hlt _ => ?_
  refine (place_oversized hp).mono (fun _ _ => False.elim) ?_
  rintro _ _ rfl
  exact .inr ⟨hlt, rfl⟩

theorem commit_oversized (hp : UInt32.size ≤ v.records.nextBytes.size) :
    Ends commit v (fun _ _ => False) fun _ w => Spared v w := by
  refine commit_of_root (fun _ => .inl rfl) (fun _ => .inl rfl) (fun hlt _ => .inr ⟨hlt, rfl⟩)
    fun _ hlt _ => ?_
  refine (place_oversized hp).bind (fun _ _ => False.elim) ?_
  rintro _ _ rfl
  exact .inr ⟨hlt, rfl⟩

end

variable {δ : Type} [Device δ] [Faithful δ] {v w : Store δ} {m : Medium} {E : Edition}
  {live committed : Contents} {q : Request}

/-- With changes pending, the next id may be any that is not taken yet. -/
theorem Consistent.skipped (h : Consistent v m E live committed bare)
    (hlt : v.records.nextId.toNat + 1 < UInt32.size) (hdirty : v.records.dirty = true) :
    Consistent v.skipped m E live committed bare :=
  { h with
    ids_lt := fun c hc => lt_succ_id (h.ids_lt c hc) hlt
    clean := fun hclean => (Bool.false_ne_true (hclean.symm.trans hdirty)).elim }

theorem Consistent.spared (h : Consistent (v.marked true) m E live committed bare)
    (hw : Spared v w) : Consistent (w.marked true) m E live committed bare := by
  rcases hw with rfl | ⟨hlt, rfl⟩
  · exact h
  · exact h.skipped hlt rfl

theorem Sane.marked (h : Sane v) : Sane (v.marked true) := by
  obtain ⟨hn, -, m, E, live, committed, hcons⟩ := h
  exact ⟨hn, nofun, m, E, live, committed, { hcons with clean := nofun }⟩

theorem Spared.engine_eq {δ : Type} {v w : Store δ} (h : Spared v w) : w.engine = v.engine := by
  rcases h with rfl | ⟨-, rfl⟩ <;> rfl

theorem Sane.spared (h : Sane (v.marked true)) (hw : Spared v w) : Sane (w.marked true) := by
  obtain ⟨hn, -, m, E, live, committed, hcons⟩ := h
  refine ⟨?_, nofun, m, E, live, committed, hcons.spared hw⟩
  change w.engine.reserved = .nothing
  rw [hw.engine_eq]
  exact hn

/-- A request that is answered leaves the store sane but for the flag, if it was so before. -/
theorem run_marked (q : Request) (h : Sane (v.marked true)) :
    Ends q.run v (fun _ w => Sane (w.marked true)) Any := by
  by_cases hq : q.Stays
  · obtain ⟨hanswer, flag, hstate⟩ := Request.run_blind hq v true
    refine ⟨fun reply w hrun => ?_, fun _ _ _ => trivial⟩
    rw [hrun] at hanswer hstate
    exact ((q.run_done h).ok reply (w.marked flag) (Prod.ext hanswer hstate)).marked
  obtain ⟨m, E, live, committed, hcons⟩ := h.consistent
  have hopen (settings : Settings) {w : Store δ} {m : Medium} (hshows : w.engine.Shows m)
      (hsettled : E.Settled m committed) : Ends (do
        openAgain settings
        return Reply.done) w (fun _ w => Sane (w.marked true)) Any :=
    (openAgain_done hshows hsettled).bind
      (fun _ _ hw => ends_pure.2 (hw.sane hsettled).marked) fun _ _ hf => hf
  cases q with
  | abandon settings => exact hopen settings hcons.shows hcons.settled
  | reopen settings =>
    cases hdirty : v.records.dirty with
    | true =>
      rw [marked_of_dirty hdirty] at h
      exact (Request.run_done _ h).mono (fun _ _ hw => hw.marked) fun _ _ hf => hf
    | false =>
      -- Nothing is committed, and the file is tidied up as for a store with changes.
      have htidy := tidy_done hcons
      rw [Volume.onEngine, ends_within] at htidy
      rw [Request.run, close, ends_bind, ends_bind, ends_get, readOnly_eq (e := v.engine) hcons.shows,
        if_neg Bool.false_ne_true, ends_bind, ends_get, hdirty, if_neg Bool.false_ne_true,
        Volume.onEngine, ends_within]
      refine htidy.mono ?_ fun _ _ hf => hf
      rintro _ e ⟨-, -, m', h'⟩
      exact hopen settings (w := ⟨e, v.records⟩) h'.shows h'.settled
  | _ => exact absurd trivial hq

/-- The stores that come of `v` by requests each of which is answered, or refused as what it is to
store is too large. No call of the device fails on the way.

This is a limit of what is shown of these stores: a pass that breaks off because the catalog has
become too large is not among the requests. It may leave free what the last commit refers to, and
then no edition is safe on the file any more. -/
inductive Onward (v : Store δ) : Store δ → Prop
  | refl : Onward v v
  | answered {u w : Store δ} {q : Request} {reply : Reply} :
      Onward v u → q.run u = (.ok reply, w) → Onward v w
  | oversized {u w : Store δ} {q : Request} {err : StoreError} :
      Onward v u → q.Oversized u → q.run u = (.error (.error err), w) → Onward v w

theorem Onward.sane (hv : Sane (v.marked true)) (h : Onward v w) : Sane (w.marked true) := by
  induction h with
  | refl => exact hv
  | answered _ hrun ih => exact (run_marked _ ih).ok _ _ hrun
  | @oversized u w q err _ hq hrun ih =>
    cases q with
    | write payload =>
      have hends : Ends (Request.write payload).run u (fun _ _ => False) fun _ w => Spared u w :=
        (write_oversized hq).bind (fun _ _ => False.elim) fun _ _ hw => hw
      exact ih.spared (hends.error _ _ hrun)
    | commit =>
      have hends : Ends Request.commit.run u (fun _ _ => False) fun _ w => Spared u w :=
        ends_bind.2 (ends_discard.2
          ((commit_oversized hq).mono (fun _ _ => False.elim) fun _ _ hw => hw))
      exact ih.spared (hends.error _ _ hrun)
    | _ => exact hq.elim

/-- The stores that come about on an empty file without a failing call of the device, and without a
pass that breaks off, as for `Onward`. -/
def Unbroken (v : Store δ) : Prop :=
  ∃ (d : δ) (m : Medium) (settings : Settings) (u : Store δ), headerBytes < Lawful.room δ ∧
    Lawful.Shows d m ∧ m.content.size = 0 ∧ openOn settings d = .ok u ∧ Onward u v

theorem Unbroken.sane (h : Unbroken v) : Sane (v.marked true) := by
  obtain ⟨d, m, settings, u, hroom, hd, hm, hopen, hv⟩ := h
  exact hv.sane (Attained.opened hroom hd hm hopen).sane.marked

end Store

end BlockStore
