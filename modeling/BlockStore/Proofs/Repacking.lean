import BlockStore.Proofs.Outcome

namespace BlockStore.Store

open BlockStore.Action Engine Device

variable {δ : Type} [Device δ] [Faithful δ] {v v' v₁ : Store δ} {m : Medium} {E : Edition}
  {live committed : Contents} {c : Chunk} {ds : List Chunk} {low high target passBytes spare : Nat}
  {any inside : Bool}

/-- The store with the same payloads in other places, all of them durable. -/
structure Repacked (v : Store δ) (live : Contents) (v' : Store δ) : Prop where
  mode : v'.engine.mode = v.engine.mode
  removed : v'.records.removed = []
  consistent : ∃ m E, Consistent v' m E live live bare

theorem Repacked.of_mode (h : Repacked v₁ live v') (hm : v₁.engine.mode = v.engine.mode) :
    Repacked v live v' := ⟨h.mode.trans hm, h.removed, h.consistent⟩

theorem returnLast_done (h : Consistent v m E live live bare) (hremoved : v.records.removed = [])
    (hreuse : v.engine.reuse = true) (hnothing : v.engine.reserved = .nothing)
    (hlast : v.records.root = some c) (boundary : Nat) (movedLate : Bool) :
    Ends (Volume.returnLast boundary movedLate) v (fun _ => Repacked v live) Any := by
  refine Volume.ends_returnLast movedLate
    (I := fun w => Alike v w ∧ ∃ m₁ E₁, Consistent w m₁ E₁ live live bare)
    ⟨.refl v, m, E, h⟩ (fun root hroot => ?_) ?_ ?_
  · obtain rfl := Option.some.inj (hlast.symm.trans hroot)
    exact moveBelow_done h hlast fun b hb => hb.elim
  · rintro w ⟨ha₁, m₁, E₁, h₁⟩
    refine (storeReserving_done h₁ ((congrArg Mode.reuse ha₁.mode).trans hreuse)
      ((congrArg Mode.reserved ha₁.mode).trans hnothing) fun b hb => hb.elim).mono ?_ fun _ _ hf => hf
    exact fun _ v₂ ⟨hc₂, h₂⟩ => ⟨hc₂.mode.trans ha₁.mode, hc₂.removed, h₂⟩
  · exact fun w ⟨ha₁, h₁⟩ => ⟨ha₁.mode, ha₁.removed.trans hremoved, h₁⟩

theorem returnRoot_done (h : Consistent v m E live live (vacated low high any))
    (hreuse : v.engine.reuse = true) (hnothing : v.engine.reserved = .nothing)
    (hc : v.records.root = some c) {root : Chunk} (hid : c.id = root.id) :
    Ends (Volume.returnRoot root inside low high) v (fun _ => Repacked v live) Any := by
  have hold : c.id ≠ v.records.nextId := fun heq => UInt32.lt_irrefl _ (heq ▸ h.ids_lt c
    (v.records.chunks_subperm.subset (Catalog.mem_chunks.2 (.inr hc))))
  rw [Volume.returnRoot_eq, ← hid]
  refine (moveBelow_done h hc fun b hb => hb.2.1).bind ?_ fun _ _ hf => hf
  rintro moved v₁ ⟨ha₁, m₁, E₁, h₁⟩
  refine (storeReserving_done (r := .between low high) h₁
    ((congrArg Mode.reuse ha₁.mode).trans hreuse)
    ((congrArg Mode.reserved ha₁.mode).trans hnothing) fun b hb => hb.2).bind ?_ fun _ _ hf => hf
  rintro _ v₂ ⟨hc₂, m₂, E₂, h₂⟩
  refine (sync_ends h₂).bind ?_ fun _ _ _ => trivial
  rintro _ v₃ ⟨hrec₃, -, hmode₃, h₃⟩
  have hmode : v₃.engine.mode = v.engine.mode := hmode₃.trans (hc₂.mode.trans ha₁.mode)
  have hgone : v₃.records.find? c.id = none := by
    rw [hrec₃]
    exact hc₂.gone ha₁ h₁ hc hold
  obtain ⟨last, hlast, -, -⟩ := hc₂.root
  have hlate (boundary : Nat) (movedLate : Bool) :=
    (returnLast_done h₃ (by rw [hrec₃, hc₂.removed]) ((congrArg Mode.reuse hmode).trans hreuse)
      ((congrArg Mode.reserved hmode).trans hnothing) (by rw [hrec₃, hlast]) boundary
      movedLate).mono (fun _ _ hv' => hv'.of_mode hmode) fun _ _ hf => hf
  dsimp only
  split
  · rw [ends_bind, ends_pure]
    exact hlate _ _
  · refine (moveBelow_ends_none hgone).bind ?_ fun _ _ => False.elim
    rintro movedLate _ rfl
    exact hlate _ _

/-- Once the evacuation has been stored, the chunks and the root go back to the holes. -/
theorem repack_done {v₂ : Store δ} {m₂ m₁ : Medium} {E₂ E₁ : Edition} {ys : List Chunk}
    {shield : Nat → Prop} {stop leftmost : Nat} (h₂ : Consistent v₂ m₂ E₂ live committed shield)
    (hc : Committed v₂ v) (h : Consistent v m₁ E₁ live live bare) (hreuse : v.engine.reuse = true)
    (hnothing : v.engine.reserved = .nothing)
    (hys : ∀ y ∈ ys, v₂.records.find? y.id = some y) (hnodup : (ys.map Chunk.id).Nodup) :
    Ends (Volume.repack leftmost stop ys) v (fun _ => Repacked v live) Any := by
  unfold Volume.repack
  refine (sync_ends h).bind ?_ fun _ _ _ => trivial
  rintro _ v₄ ⟨hrec₄, -, hmode₄, h₄⟩
  have hc₄ : Committed v₂ v₄ := hc.of_records hrec₄ hmode₄
  obtain ⟨root, hroot, -, -⟩ := hc₄.root
  have hget : v₄.root? = some root := hroot
  rw [ends_bind, ends_get, hget, ends_bind, ends_get]
  dsimp only
  refine (return_of (h₂.swept hc₄ h₄ hys hnodup (Nat.le_refl _)) Sweep.move_done).bind ?_
    fun _ _ hf => hf
  rintro outs v₅ ⟨ha₅, ⟨m₅, E₅, h₅⟩, -, -, -⟩
  have hmode₅ : v₅.engine.mode = v.engine.mode := ha₅.mode.trans hmode₄
  have hremoved₅ : v₅.records.removed = [] := ha₅.removed.trans hc₄.removed
  have htrim {w : Store δ} (hw : Repacked v live w) :
      Ends (Volume.onEngine do discard (shrink 0); Engine.sync) w (fun _ => Repacked v live) Any := by
    obtain ⟨hmode, hremoved, m', E', hw⟩ := hw
    refine (trim_done 0 hw).mono ?_ fun _ _ hf => hf
    exact fun _ w' ⟨hrec, hm, m'', hw'⟩ => ⟨hm.trans hmode, by rw [hrec, hremoved], m'', E', hw'⟩
  unfold Volume.settle
  dsimp only
  split
  · obtain ⟨c, hc, heq⟩ := Option.map_eq_some_iff.1 (ha₅.root.trans (congrArg _ hroot))
    refine (returnRoot_done h₅ ((congrArg Mode.reuse hmode₅).trans hreuse)
      ((congrArg Mode.reserved hmode₅).trans hnothing) hc (Prod.mk.inj heq).1).bind ?_
      fun _ _ hf => hf
    exact fun _ v₆ h₆ => htrim (h₆.of_mode hmode₅)
  · next hno =>
    have hquiet : outs.any Option.isSome = false := by
      simp only [Bool.or_eq_true, not_or, Bool.not_eq_true] at hno
      exact hno.2
    exact htrim ⟨hmode₅, hremoved₅, m₅, E₅,
      h₅.mono fun b hb => absurd hb.1 (by rw [hquiet]; exact Bool.false_ne_true)⟩

/-- The store is as it was or, once a commit has answered, repacked. -/
def Tended (v : Store δ) (live : Contents) (answered : Bool) (v' : Store δ) : Prop :=
  match answered with
  | false => v' = v
  | true => Repacked v live v'

theorem runPassToStore_done {leftmost : Nat} (h : Consistent v m E live committed bare)
    (hreuse : v.engine.reuse = true) (hnothing : v.engine.reserved = .nothing)
    (hds : Chosen v leftmost ds) : (Volume.runPassToStore leftmost ds).Ends v
      (fun answered _ v' => answered = true ∧ Repacked v live v') fun _ => Any := by
  unfold Volume.runPassToStore
  rw [Halting.ends_through_bind]
  refine (sync_ends h).mono ?_ fun _ _ _ => trivial
  rintro _ v₁ ⟨hrec₁, hocc₁, hmode₁, h₁⟩
  have hds₁ : Chosen v₁ leftmost ds := ⟨hrec₁ ▸ hds.kept, hds.nodup, hocc₁ ▸ hds.sum_le⟩
  have hsweep := hds₁.sweep h₁
  rw [Halting.ends_get_bind, Halting.ends_through_bind]
  refine (evacuate_of hsweep (fun d hd => ?_) Sweep.move_done).mono ?_ fun _ _ hf => hf
  · obtain ⟨c, hfind, -⟩ := hds₁.kept d hd
    rw [hfind, Option.isSome_some]
  rintro ys v₂ ⟨hids, -, hys, ha₂, ⟨m₂, E₂, h₂⟩, -, -, -⟩
  have hmode₂ := ha₂.mode.trans hmode₁
  rw [Halting.ends_upTo_bind, Halting.finish_through]
  refine (storeReserving_done h₂ ((congrArg Mode.reuse hmode₂).trans hreuse)
    ((congrArg Mode.reserved hmode₂).trans hnothing) fun b hb => hb.2).mono ?_ fun _ _ hf => hf
  rintro _ v₃ ⟨hc₃, m₃, E₃, h₃⟩
  have hmode₃ := hc₃.mode.trans hmode₂
  refine (repack_done h₂ hc₃ h₃ ((congrArg Mode.reuse hmode₃).trans hreuse)
    ((congrArg Mode.reserved hmode₃).trans hnothing) hys (hids ▸ hds.nodup)).mono ?_ fun _ _ hf => hf
  exact fun _ v' hv' => ⟨rfl, hv'.of_mode hmode₃⟩

theorem Tended.consistent {answered : Bool} (h : Tended v live answered v')
    (hv : Consistent v m E live committed bare) :
    ∃ m' E', Consistent v' m' E' live (.latest answered committed live) bare := by
  cases answered with
  | false =>
    obtain rfl := h
    exact ⟨m, E, hv⟩
  | true => exact Repacked.consistent h

theorem Tended.mode {answered : Bool} (h : Tended v live answered v') :
    v'.engine.mode = v.engine.mode := by
  cases answered with
  | false =>
    obtain rfl := h
    rfl
  | true => exact Repacked.mode h

theorem Repacked.tended {answered : Bool} (h : Repacked v live v₁)
    (h' : Tended v₁ live answered v') : Repacked v live v' := by
  cases answered with
  | false =>
    obtain rfl := h'
    exact h
  | true => exact Repacked.of_mode h' h.mode

theorem Committed.repacked (hc : Committed v v') (h : Consistent v' m E live live bare) :
    Repacked v live v' := ⟨hc.mode, hc.removed, m, E, h⟩

theorem pass_done (h : Consistent v m E live committed bare) (hreuse : v.engine.reuse = true)
    (hnothing : v.engine.reserved = .nothing) : (Volume.compactToStore passBytes).Ends v
      (fun answered _ => Tended v live answered) fun _ => Any := by
  unfold Volume.compactToStore
  rw [Halting.ends_get_bind]
  refine Halting.ends_through_bind.2 (ends_of_checked fun first _ => ?_)
  refine Halting.ends_through_bind.2 (ends_of_checked fun chosen hchoose => ?_)
  obtain ⟨hsub, hsorted⟩ := Compaction.of_choose hchoose
  cases chosen with
  | nil => exact Halting.ends_pure.2 rfl
  | cons c ds =>
    refine Halting.ends_bind.2 ((runPassToStore_done h hreuse hnothing (h.chosen hsub hsorted)).mono ?_
      fun _ _ _ hf => hf)
    rintro _ _ v' ⟨rfl, hv'⟩
    exact ends_pure.2 hv'

theorem compactToCommit_done (h : Consistent v m E live committed bare)
    (hnothing : v.engine.reserved = .nothing) : (compactToCommit target passBytes).Ends v
      (fun answered _ => Tended v live answered) fun _ => Any := by
  unfold compactToCommit
  rw [Halting.ends_get_bind]
  dsimp only
  split
  · exact Halting.ends_pure.2 rfl
  next hwritable =>
  have hreuse : v.engine.reuse = true := by
    simp only [Bool.or_eq_true, Bool.not_eq_true', not_or, Bool.not_eq_false] at hwritable
    exact hwritable.2
  refine Halting.ends_through_bind.2 (ends_of_checked fun rate _ => ?_)
  split
  · exact Halting.ends_pure.2 rfl
  split
  · exact pass_done h hreuse hnothing
  · rw [Halting.ends_upTo_bind, ends_discard]
    refine (commit_done h fun b hb => hb.elim).mono ?_ fun _ _ hf => hf
    rintro _ v₁ ⟨hc, root, -, -, h₁⟩
    refine (pass_done h₁ ((congrArg Mode.reuse hc.mode).trans hreuse)
      ((congrArg Mode.reserved hc.mode).trans hnothing)).finish.mono ?_ fun _ _ hf => hf
    exact fun _ v₂ h₂ => (hc.repacked h₁).tended h₂

theorem compactAllToCommit_done (h : Consistent v m E live committed bare)
    (hnothing : v.engine.reserved = .nothing) : (compactAllToCommit spare target passBytes).Ends v
      (fun answered _ => Tended v live answered) fun _ => Any := by
  induction spare generalizing v m E committed with
  | zero => exact compactToCommit_done h hnothing
  | succ spare ih =>
    unfold compactAllToCommit
    refine Halting.ends_bind.2 ((compactToCommit_done h hnothing).mono ?_ fun _ _ _ hf => hf)
    intro answered again v₁ h₁
    obtain ⟨m₁, E₁, hv₁⟩ := h₁.consistent h
    have hrest := ih hv₁ ((congrArg Mode.reserved h₁.mode).trans hnothing)
    cases answered with
    | false =>
      obtain rfl := h₁
      cases again with
      | false => exact Halting.ends_pure.2 rfl
      | true =>
        refine Halting.ends_bind.2 (Halting.ends_discard.2 (hrest.mono ?_ fun _ _ _ hf => hf))
        intro answered _ v₂ h₂
        cases answered with
        | false => exact Halting.ends_pure.2 h₂
        | true => exact ends_pure.2 h₂
    | true =>
      cases again with
      | false => exact ends_pure.2 h₁
      | true =>
        simp only [if_true, Halting.finish_bind, Halting.finish_discard]
        rw [ends_bind, ends_discard]
        exact hrest.finish.mono (fun _ v₂ h₂ => ends_pure.2 (Repacked.tended h₁ h₂)) fun _ _ hf => hf

theorem maintainToCommit_done (h : Consistent v m E live committed bare)
    (hnothing : v.engine.reserved = .nothing) : (maintainToCommit spare).Ends v
      (fun answered _ => Tended v live answered) fun _ => Any := by
  unfold maintainToCommit
  rw [Halting.ends_get_bind]
  dsimp only
  split
  · exact Halting.ends_pure.2 rfl
  refine Halting.ends_through_bind.2 (ends_of_checked fun rate _ => ?_)
  split
  · exact Halting.ends_pure.2 rfl
  · exact compactAllToCommit_done h hnothing

/-- What a store does to its file when it is closed. -/
theorem tidy_done (h : Consistent v m E live committed bare) :
    Ends (Volume.onEngine do
      discard (shrink (← get).settings.shrinkFrom)
      Engine.sync) v (fun _ v' => v'.records = v.records ∧ v'.engine.mode = v.engine.mode ∧
        ∃ m', Consistent v' m' E live committed bare) Any := by
  have htrim := trim_done v.engine.settings.shrinkFrom h
  rw [Volume.onEngine, ends_within] at htrim ⊢
  rw [ends_bind, ends_get]
  exact htrim

/-- A store that is closed has all its payloads on the file, and drops none of them. -/
structure Closed (v : Store δ) (live : Contents) (v' : Store δ) : Prop where
  mode : v'.engine.mode = v.engine.mode
  data : v'.records.data = v.records.data
  idle : v.records.dirty = false → v'.records = v.records
  dirty : v'.records.dirty = false
  removed : v.records.dirty = true → v'.records.removed = []
  consistent : ∃ m E, Consistent v' m E live live bare

theorem closeToCommit_done (h : Consistent v m E live committed bare) :
    closeToCommit.Ends v (fun answered _ v' => Closed v live v' ∧
      Contents.latest answered committed live = live) fun _ => Any := by
  unfold closeToCommit
  rw [Halting.ends_get_bind, readOnly_eq h.shows, if_neg Bool.false_ne_true, Halting.ends_get_bind]
  split
  · next hdirty =>
    rw [Halting.ends_upTo_bind, ends_discard, Halting.finish_through]
    refine (commit_done h fun b hb => hb.elim).mono ?_ fun _ _ hf => hf
    rintro _ v₁ ⟨hc, root, -, -, h₁⟩
    refine (tidy_done h₁).mono ?_ fun _ _ hf => hf
    rintro _ v₂ ⟨hrec, hmode, m₂, h₂⟩
    exact ⟨⟨hmode.trans hc.mode, by rw [hrec, hc.data],
      fun hno => (Bool.false_ne_true (hno.symm.trans hdirty)).elim, by rw [hrec, hc.dirty],
      fun _ => by rw [hrec, hc.removed], m₂, _, h₂⟩, rfl⟩
  · next hdirty =>
    have hdirty : v.records.dirty = false := by simpa using hdirty
    obtain rfl := (h.clean hdirty).2.2
    refine Halting.ends_through.2 ((tidy_done h).mono ?_ fun _ _ hf => hf)
    rintro _ v₂ ⟨hrec, hmode, m₂, h₂⟩
    exact ⟨⟨hmode, by rw [hrec], fun _ => hrec, by rw [hrec, hdirty],
      fun hyes => (Bool.false_ne_true (hdirty.symm.trans hyes)).elim, m₂, E, h₂⟩, rfl⟩

theorem close_done (h : Consistent v m E live committed bare) :
    Ends close v (fun _ => Closed v live) Any := by
  rw [← finish_closeToCommit]
  exact (closeToCommit_done h).finish.mono (fun _ _ hw => hw.1) fun _ _ hf => hf

end BlockStore.Store
