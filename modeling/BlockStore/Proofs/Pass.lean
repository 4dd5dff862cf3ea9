import BlockStore.Proofs.Commitment
import BlockStore.Proofs.Sweep
import BlockStore.Proofs.Trimming

namespace BlockStore.Store

open BlockStore.Action Engine Device

variable {δ : Type} [Device δ] [Lawful δ] {v v' v₁ : Store δ} {m : Medium} {E : Edition}
  {live committed : Contents} {shield : Nat → Prop} {c d moved : Chunk} {ds : List Chunk}
  {low high commits top : Nat} {any inside : Bool}

/-- The way of a store through a compaction: numbers are only used up, and no chunk is lost. -/
structure Advanced (v v' : Store δ) : Prop where
  mode : v'.engine.mode = v.engine.mode
  size : v'.records.data.size = v.records.data.size
  nextId_le : v.records.nextId ≤ v'.records.nextId
  version_le : v.records.version ≤ v'.records.version

omit [Device δ] [Lawful δ] in
theorem Advanced.trans {v'' : Store δ} (h : Advanced v v') (h' : Advanced v' v'') :
    Advanced v v'' :=
  ⟨h'.mode.trans h.mode, h'.size.trans h.size, UInt32.le_trans h.nextId_le h'.nextId_le,
    UInt64.le_trans h.version_le h'.version_le⟩

omit [Device δ] [Lawful δ] in
theorem Alike.advanced (h : Alike v v') : Advanced v v' :=
  ⟨h.mode, h.size, by rw [h.nextId]; exact UInt32.le_refl _, h.version_le⟩

omit [Device δ] [Lawful δ] in
theorem Committed.advanced (h : Committed v v') (hv : Roomy v (commits + 1) top) :
    Advanced v v' := by
  have hid := hv.nextId
  refine ⟨h.mode, by rw [h.data], ?_, UInt64.le_of_lt (h.version_lt hv)⟩
  rw [h.nextId]
  exact UInt32.le_of_lt (self_lt_succ_id (by omega))

omit [Device δ] [Lawful δ] in
theorem Committed.of_records {v'' : Store δ} (h : Committed v v') (hr : v''.records = v'.records)
    (hm : v''.engine.mode = v'.engine.mode) : Committed v v'' := by
  obtain ⟨h1, h2, h3, h4, h5, h6, h7⟩ := h
  rw [← hr] at h2 h3 h4 h5 h6 h7
  exact ⟨hm.trans h1, h2, h3, h4, h5, h6, h7⟩

omit [Device δ] [Lawful δ] in
/-- Old ids stand for data chunks alone once the root has a new one. -/
theorem Committed.find?_eq (h : Committed v v') {id : UInt32} (hid : id ≠ v.records.nextId) :
    v'.records.find? id = v.records.data.find? id := by
  obtain ⟨root, hroot, hnext, -⟩ := h.root
  rw [Catalog.find?, h.data, hroot, Option.filter_some,
    if_neg fun hdec => hid ((of_decide_eq_true hdec).symm.trans hnext), Option.or_none]

/-- A commit has put another root in the place of one that moved before, so that a second move of
that one finds nothing. -/
theorem Committed.gone (h : Committed v₁ v') (ha : Alike v v₁)
    (h₁ : Consistent v₁ m E live committed shield) (hc : v.records.root = some c)
    (hold : c.id ≠ v.records.nextId) : v'.records.find? c.id = none := by
  rw [h.find?_eq (by rw [ha.nextId]; exact hold)]
  have hroot := ha.root
  rw [hc, Option.map_some] at hroot
  obtain ⟨c₁, hc₁, heq⟩ := Option.map_eq_some_iff.1 hroot
  rw [← (Prod.mk.inj heq).1]
  exact Roster.find?_eq_none.2 (h₁.root_unlike hc₁)

/-- The first sweep takes every chosen chunk along. -/
theorem evacuate_of {F : Failure → Store δ → Prop}
    (h : Sweep v live committed low high top ds true v)
    (hkept : ∀ d ∈ ds, (v.records.find? d.id).isSome)
    (hmove : ∀ {d rest any v'}, Sweep v live committed low high top (d :: rest) any v' →
      Ends (Volume.move d.id (.between low high)) v' (fun out v'' => Swept v' v'' d out ∧
        Sweep v live committed low high top rest (any || out.isSome) v'') F) :
    Ends (Volume.evacuate low high ds) v
      (fun ys v' => ys.map Chunk.id = ds.map Chunk.id ∧
        ys.map (fun y => y.len.toNat) = ds.map (fun d => d.len.toNat) ∧
        (∀ y ∈ ys, v'.records.find? y.id = some y) ∧
        Sweep v live committed low high top [] true v') F := by
  have hnodup := h.nodup
  refine (ends_mapM (I := fun todo ys v' => ys.map Chunk.id ++ todo.map Chunk.id = ds.map Chunk.id ∧
    ys.map (fun y => y.len.toNat) ++ todo.map (fun d => d.len.toNat) =
      ds.map (fun d => d.len.toNat) ∧
    (∀ y ∈ ys, v'.records.find? y.id = some y) ∧
    (∀ d ∈ todo, (v'.records.find? d.id).isSome) ∧
    Sweep v live committed low high top todo true v') ⟨rfl, rfl, nofun, hkept, h⟩ ?_).mono ?_
    fun _ _ hf => hf
  · rintro d rest ys v₁ ⟨hids, hlens, hys, hrest, hs⟩
    rw [ends_bind]
    refine (hmove hs).mono ?_ fun _ _ hf => hf
    rintro out v₂ ⟨hswept, hs₂⟩
    obtain ⟨moved, rfl⟩ := Option.isSome_iff_exists.1
      (hswept.isSome_eq.trans (hrest d List.mem_cons_self))
    obtain ⟨hid, hlen⟩ := hswept.len_eq moved rfl
    rw [← hids, List.map_cons, List.nodup_append] at hnodup
    obtain ⟨-, htodo, happ⟩ := hnodup
    refine ends_pure.2 ⟨?_, ?_, fun y hy => ?_, fun e he => ?_, hs₂⟩
    · rw [List.map_append, List.append_assoc, ← hids, List.map_cons, List.map_cons, ← hid]
      rfl
    · rw [List.map_append, List.append_assoc, ← hlens, List.map_cons, List.map_cons, ← hlen]
      rfl
    · rcases List.mem_append.1 hy with hy | hy
      · rw [hswept.find?_of_ne y.id (happ _ (List.mem_map_of_mem hy) _ List.mem_cons_self)]
        exact hys y hy
      · obtain rfl := List.mem_singleton.1 hy
        rw [hid]
        exact hswept.find?_eq
    · rw [hswept.find?_of_ne e.id fun heq =>
        (List.nodup_cons.1 htodo).1 (List.mem_map.2 ⟨e, he, heq⟩)]
      exact hrest e (List.mem_cons_of_mem _ he)
  · rintro ys v₁ ⟨hids, hlens, hys, -, hs⟩
    rw [List.map_nil, List.append_nil] at hids hlens
    exact ⟨hids, hlens, hys, hs⟩

theorem evacuate_ends (h : Sweep v live committed low high top ds true v)
    (hkept : ∀ d ∈ ds, (v.records.find? d.id).isSome) (hroom : top * blockSize < Lawful.room δ) :
    Ends (Volume.evacuate low high ds) v
      (fun ys v' => ys.map Chunk.id = ds.map Chunk.id ∧
        ys.map (fun y => y.len.toNat) = ds.map (fun d => d.len.toNat) ∧
        (∀ y ∈ ys, v'.records.find? y.id = some y) ∧
        Sweep v live committed low high top [] true v') (CutOff committed live) :=
  evacuate_of h hkept fun hs => hs.move_ends hroom

/-- The second sweep knows whether any chunk has moved. -/
theorem return_of {F : Failure → Store δ → Prop}
    (h : Sweep v live committed low high top ds false v)
    (hmove : ∀ {d rest any v'}, Sweep v live committed low high top (d :: rest) any v' →
      Ends (Volume.move d.id (.between low high)) v' (fun out v'' => Swept v' v'' d out ∧
        Sweep v live committed low high top rest (any || out.isSome) v'') F) :
    Ends (ds.mapM fun c => Volume.move c.id (.between low high)) v
      (fun outs v' => Sweep v live committed low high top [] (outs.any Option.isSome) v') F := by
  refine ends_mapM (I := fun todo outs v' =>
    Sweep v live committed low high top todo (outs.any Option.isSome) v') h ?_
  intro d rest outs v₁ hs
  refine (hmove hs).mono ?_ fun _ _ hf => hf
  rintro out v₂ ⟨-, hs₂⟩
  rw [List.any_append, List.any_cons, List.any_nil, Bool.or_false]
  exact hs₂

theorem return_ends (h : Sweep v live committed low high top ds false v)
    (hroom : top * blockSize < Lawful.room δ) :
    Ends (ds.mapM fun c => Volume.move c.id (.between low high)) v
      (fun outs v' => Sweep v live committed low high top [] (outs.any Option.isSome) v')
      (CutOff committed live) := return_of h fun hs => hs.move_ends hroom

/-- The root of the last commit goes before `boundary`, and a further commit follows if it did. -/
theorem returnLast_ends {last : Chunk} (h : Consistent v m E live live bare)
    (hreuse : v.engine.reuse = true) (hnothing : v.engine.reserved = .nothing)
    (hv : Roomy v (commits + 1) top) (hlast : v.records.root = some last)
    (hlen : last.len.toNat ≤ Chunk.maxBlocks)
    (hroom : (top + Chunk.maxBlocks) * blockSize < Lawful.room δ) (boundary : Nat)
    (movedLate : Bool) :
    Ends (Volume.returnLast boundary movedLate) v (fun _ v' =>
        Advanced v v' ∧ Roomy v' commits (top + Chunk.maxBlocks) ∧
        ∃ m' E', Consistent v' m' E' live live bare) (CutOff live live) := by
  have hstop := hv.stop_le
  refine Volume.ends_returnLast movedLate (I := fun w => Alike v w ∧
    w.engine.occupancy.stop ≤ v.engine.occupancy.stop ∧ ∃ m₁ E₁, Consistent w m₁ E₁ live live bare)
    ⟨.refl v, Nat.le_refl _, m, E, h⟩ (fun root hroot => ?_) ?_ ?_
  · obtain rfl := Option.some.inj (hlast.symm.trans hroot)
    refine moveBelow_ends h hlast (fun b hb => hb.elim) ?_
    simp only [mul_blockSize] at *
    omega
  · rintro w ⟨ha₁, hstop₁, m₁, E₁, h₁⟩
    have hroomy₁ : Roomy w (commits + 1) top := hv.alike ha₁ (by omega)
    have hreuse₁ : w.engine.reuse = true := (congrArg Mode.reuse ha₁.mode).trans hreuse
    have hnothing₁ : w.engine.reserved = .nothing :=
      (congrArg Mode.reserved ha₁.mode).trans hnothing
    refine (storeReserving_ends h₁ hreuse₁ hnothing₁ hroomy₁ (Nat.zero_le _) hroom
      (fun b hb => hb.elim)).mono ?_ fun _ _ hf => hf
    rintro _ v₂ ⟨hc₂, hroomy₂, h₂⟩
    exact ⟨ha₁.advanced.trans (hc₂.advanced hroomy₁), hroomy₂, h₂⟩
  · rintro w ⟨ha₁, hstop₁, h₁⟩
    exact ⟨ha₁.advanced, (hv.alike ha₁ (by omega)).mono (by omega) (by omega), h₁⟩

/-- After the second sweep the root goes back too. Until a commit has followed, the blocks that the
chunks have left stay closed. -/
theorem returnRoot_ends {root : Chunk} (h : Consistent v m E live live (vacated low high any))
    (hreuse : v.engine.reuse = true) (hnothing : v.engine.reserved = .nothing)
    (hv : Roomy v (commits + 2) top) (hhigh : high ≤ top)
    (hroot : v.records.root.map (fun c => (c.id, c.len)) = some (root.id, root.len))
    (hlen : root.len.toNat ≤ Chunk.maxBlocks)
    (hroom : (top + 2 * Chunk.maxBlocks) * blockSize < Lawful.room δ) :
    Ends (Volume.returnRoot root inside low high) v (fun _ v' => Advanced v v' ∧
      Roomy v' commits (top + 2 * Chunk.maxBlocks) ∧
      ∃ m' E', Consistent v' m' E' live live bare) (CutOff live live) := by
  obtain ⟨c, hc, hroot⟩ := Option.map_eq_some_iff.1 hroot
  obtain ⟨hid, hclen⟩ := Prod.mk.inj hroot
  have hold : c.id ≠ v.records.nextId := fun heq => UInt32.lt_irrefl _ (heq ▸ h.ids_lt c
    (v.records.chunks_subperm.subset (Catalog.mem_chunks.2 (.inr hc))))
  have hstop := hv.stop_le
  have htop : (top + Chunk.maxBlocks + Chunk.maxBlocks) * blockSize < Lawful.room δ := by
    rwa [Nat.add_assoc, ← Nat.two_mul]
  rw [Volume.returnRoot_eq, ← hid]
  refine (moveBelow_ends h hc (fun b hb => hb.2.1) ?_).bind ?_ fun _ _ hf => hf
  · rw [hclen]
    simp only [mul_blockSize] at *
    omega
  rintro moved v₁ ⟨ha₁, hstop₁, m₁, E₁, h₁⟩
  have hroomy₁ : Roomy v₁ (commits + 1 + 1) top := hv.alike ha₁ (by omega)
  have hreuse₁ : v₁.engine.reuse = true := (congrArg Mode.reuse ha₁.mode).trans hreuse
  have hnothing₁ : v₁.engine.reserved = .nothing := (congrArg Mode.reserved ha₁.mode).trans hnothing
  refine (storeReserving_ends h₁ hreuse₁ hnothing₁ hroomy₁ (r := .between low high) hhigh
    (by simp only [mul_blockSize] at *; omega) (fun b hb => hb.2)).bind ?_
    fun _ _ hf => hf
  rintro _ v₂ ⟨hc₂, hroomy₂, m₂, E₂, h₂⟩
  have hadv₂ := ha₁.advanced.trans (hc₂.advanced hroomy₁)
  refine (sync_ends h₂).bind ?_ fun _ _ hf => hf
  rintro _ v₃ ⟨hrec₃, hocc₃, hmode₃, h₃⟩
  have ha₃ : Alike v₂ v₃ := .of_records hrec₃ hmode₃
  have hadv₃ := hadv₂.trans ha₃.advanced
  have hroomy₃ := hroomy₂.alike ha₃ (hocc₃ ▸ hroomy₂.stop_le)
  have hgone : v₃.records.find? c.id = none := by
    rw [hrec₃]
    exact hc₂.gone ha₁ h₁ hc hold
  obtain ⟨last, hlast, -, hlastLen⟩ := hc₂.root
  have hlate (boundary : Nat) (movedLate : Bool) :=
    (returnLast_ends h₃ ((congrArg Mode.reuse hadv₃.mode).trans hreuse)
      ((congrArg Mode.reserved hadv₃.mode).trans hnothing) hroomy₃ (by rw [hrec₃, hlast]) hlastLen
      htop boundary movedLate).mono (Q := fun _ v' => Advanced v v' ∧
        Roomy v' commits (top + 2 * Chunk.maxBlocks) ∧ ∃ m' E', Consistent v' m' E' live live bare)
      (fun _ v' hv' => ⟨hadv₃.trans hv'.1, hv'.2.1.mono (Nat.le_refl _) (by omega), hv'.2.2⟩)
      fun _ _ hf => hf
  dsimp only
  split
  · rw [ends_bind, ends_pure]
    exact hlate _ _
  · refine (moveBelow_ends_none hgone).bind ?_ fun _ _ => False.elim
    rintro movedLate _ rfl
    exact hlate _ _

/-- What a sweep back to the holes starts from, once a commit has followed the evacuation. -/
theorem Consistent.swept {ys : List Chunk} {stop : Nat} (h : Consistent v m E live committed shield)
    (hc : Committed v v₁) {m₁ : Medium} {E₁ : Edition} (h₁ : Consistent v₁ m₁ E₁ live live bare)
    (hys : ∀ y ∈ ys, v.records.find? y.id = some y) (hnodup : (ys.map Chunk.id).Nodup)
    (htop : v₁.engine.occupancy.stop + (ys.map fun y => y.len.toNat).sum ≤ top) :
    Sweep v₁ live live stop v₁.engine.occupancy.stop top
      (ys.filter (stop ≤ ·.block.toNat)) false v₁ := by
  have hsub := List.filter_sublist (l := ys) (p := (stop ≤ ·.block.toNat))
  refine ⟨.refl v₁, ⟨m₁, E₁, h₁.mono fun b hb => hb.elim⟩, ?_, fun d hd c hfind => ?_,
    hnodup.sublist (hsub.map _)⟩
  · rw [Nat.max_self]
    exact Nat.le_trans (Nat.add_le_add_left ((hsub.map _).sum_le_sum fun _ _ => Nat.zero_le _) _) htop
  · obtain ⟨hd, hfirst⟩ := List.mem_filter.1 hd
    have hd' := hys d hd
    have hmem := ((Catalog.find?_eq_some h.ids_nodup).1 hd').1
    have hlt := h.ids_lt d (v.records.chunks_subperm.subset hmem)
    obtain ⟨hmem₁, -⟩ := (Catalog.find?_eq_some h₁.ids_nodup).1 hfind
    rw [hc.find?_eq (UInt32.ne_of_lt hlt)] at hfind
    rw [Catalog.find?, hfind, Option.some_or] at hd'
    obtain rfl := Option.some.inj hd'
    exact ⟨of_decide_eq_true hfirst,
      h₁.layout.after_le_stop (v₁.records.chunks_subperm.subset hmem₁), rfl⟩

/-- What a pass is to move: chunks that are kept, each once, at or behind the first of them. -/
structure Chosen (v : Store δ) (leftmost : Nat) (ds : List Chunk) : Prop where
  kept : ∀ d ∈ ds, ∃ c, v.records.find? d.id = some c ∧ leftmost ≤ c.first ∧ c.len = d.len
  nodup : (ds.map Chunk.id).Nodup
  sum_le : (ds.map fun d => d.len.toNat).sum ≤ v.engine.occupancy.stop

theorem Chosen.sweep {leftmost : Nat} (h : Chosen v leftmost ds)
    (hv : Consistent v m E live committed bare) :
    Sweep v live committed leftmost v.engine.occupancy.stop (2 * v.engine.occupancy.stop) ds true v := by
  have hsum := h.sum_le
  refine ⟨.refl v, ⟨m, E, hv.mono fun b hb => hb.elim⟩, ?_, fun d hd c hfind => ?_, h.nodup⟩
  · rw [Nat.max_self]
    omega
  · obtain ⟨c', hfind', hfirst, hlen⟩ := h.kept d hd
    obtain rfl := Option.some.inj (hfind'.symm.trans hfind)
    obtain ⟨hmem, -⟩ := (Catalog.find?_eq_some hv.ids_nodup).1 hfind
    exact ⟨hfirst, hv.layout.after_le_stop (v.records.chunks_subperm.subset hmem), hlen⟩

/-- Room for a pass over blocks that end at `stop`. -/
structure Ample (δ : Type) [Device δ] [Lawful δ] (stop : Nat) : Prop where
  room : (3 * stop + 3 * Chunk.maxBlocks) * blockSize < Lawful.room δ
  percent : (3 * stop + 3 * Chunk.maxBlocks) * blockSize * 100 < UInt64.size

/-- Once the evacuation has been stored, the chunks and the root go back to the holes. -/
theorem repack_ends {v₂ : Store δ} {m₂ m₁ : Medium} {E₂ E₁ : Edition} {ys : List Chunk} {stop leftmost : Nat}
    (h₂ : Consistent v₂ m₂ E₂ live committed shield) (hc : Committed v₂ v)
    (h : Consistent v m₁ E₁ live live bare) (hreuse : v.engine.reuse = true)
    (hnothing : v.engine.reserved = .nothing)
    (hv : Roomy v (commits + 2) (2 * stop + Chunk.maxBlocks))
    (hys : ∀ y ∈ ys, v₂.records.find? y.id = some y) (hnodup : (ys.map Chunk.id).Nodup)
    (hsum : (ys.map fun y => y.len.toNat).sum ≤ stop) (hroom : Ample δ stop) :
    Ends (Volume.repack leftmost stop ys) v (fun _ v' => Advanced v v' ∧
      Roomy v' commits (3 * stop + 3 * Chunk.maxBlocks) ∧
      ∃ m' E', Consistent v' m' E' live live bare) (CutOff live live) := by
  obtain ⟨hroom, hpercent⟩ := hroom
  unfold Volume.repack
  refine (sync_ends h).bind ?_ fun _ _ hf => hf
  rintro _ v₄ ⟨hrec₄, hocc₄, hmode₄, h₄⟩
  have ha₄ : Alike v v₄ := .of_records hrec₄ hmode₄
  have hc₄ : Committed v₂ v₄ := hc.of_records hrec₄ hmode₄
  have hroomy₄ := hv.alike ha₄ (hocc₄ ▸ hv.stop_le)
  have hstop₄ := hroomy₄.stop_le
  obtain ⟨root, hroot, -, hrootLen⟩ := hc₄.root
  have hget : v₄.root? = some root := hroot
  rw [ends_bind, ends_get, hget, ends_bind, ends_get]
  dsimp only
  have htop : v₄.engine.occupancy.stop + (ys.map fun y => y.len.toNat).sum ≤
      3 * stop + Chunk.maxBlocks := by omega
  refine (return_ends (h₂.swept hc₄ h₄ hys hnodup htop)
    (by simp only [mul_blockSize] at *; omega)).bind ?_ fun _ _ hf => hf
  rintro outs v₅ ⟨ha₅, ⟨m₅, E₅, h₅⟩, hstop₅, -, -⟩
  rw [List.map_nil, List.sum_nil] at hstop₅
  have ha₅ := ha₄.trans ha₅
  have hroomy₅ : Roomy v₅ (commits + 2) (3 * stop + Chunk.maxBlocks) := hv.alike ha₅ (by omega)
  have htrim {w : Store δ} {m' : Medium} {E' : Edition} (ha : Advanced v w)
      (hroomy : Roomy w commits (3 * stop + 3 * Chunk.maxBlocks))
      (hw : Consistent w m' E' live live bare) :=
    (trim_ends 0 hw (by
      have := hroomy.stop_le
      simp only [mul_blockSize] at *
      omega)).mono (Q := fun _ v' => Advanced v v' ∧
        Roomy v' commits (3 * stop + 3 * Chunk.maxBlocks) ∧
        ∃ m' E', Consistent v' m' E' live live bare)
      (fun _ v' ⟨hrec, hocc, hmode, m', _, hv'⟩ => by
        have ha' : Alike w v' := .of_records hrec hmode
        exact ⟨ha.trans ha'.advanced, hroomy.alike ha' (hocc ▸ hroomy.stop_le), _, _, hv'⟩)
      fun _ _ hf => hf
  unfold Volume.settle
  dsimp only
  split
  · refine (returnRoot_ends h₅ ((congrArg Mode.reuse ha₅.mode).trans hreuse)
      ((congrArg Mode.reserved ha₅.mode).trans hnothing) hroomy₅ (by omega)
      (ha₅.root.trans (congrArg _ (hrec₄ ▸ hroot))) hrootLen
      (by simp only [mul_blockSize] at *; omega)).bind ?_ fun _ _ hf => hf
    rintro _ v₆ ⟨ha₆, hroomy₆, m₆, E₆, h₆⟩
    exact htrim (ha₅.advanced.trans ha₆) (hroomy₆.mono (Nat.le_refl _) (by omega)) h₆
  · next hno =>
    have hquiet : outs.any Option.isSome = false := by
      simp only [Bool.or_eq_true, not_or, Bool.not_eq_true] at hno
      exact hno.2
    exact htrim ha₅.advanced (hroomy₅.mono (by omega) (by omega))
      (h₅.mono fun b hb => absurd hb.1 (by rw [hquiet]; exact Bool.false_ne_true))

/-- A pass makes a commit and keeps the payloads. -/
theorem runPassToStore_ends {leftmost : Nat} (h : Consistent v m E live committed bare)
    (hreuse : v.engine.reuse = true) (hnothing : v.engine.reserved = .nothing)
    (hv : Roomy v (commits + 3) v.engine.occupancy.stop) (hds : Chosen v leftmost ds)
    (hroom : Ample δ v.engine.occupancy.stop) :
    (Volume.runPassToStore leftmost ds).Ends v (fun done _ v' => done = true ∧ Advanced v v' ∧
      v.records.version < v'.records.version ∧
      Roomy v' commits (3 * v.engine.occupancy.stop + 3 * Chunk.maxBlocks) ∧
      ∃ m' E', Consistent v' m' E' live live bare)
      fun done => CutOff (.latest done committed live) live := by
  have hample := hroom
  obtain ⟨hroom, hpercent⟩ := hroom
  unfold Volume.runPassToStore
  rw [Halting.ends_through_bind]
  refine (sync_ends h).mono ?_ fun _ _ hf => hf
  rintro _ v₁ ⟨hrec₁, hocc₁, hmode₁, h₁⟩
  have ha₁ : Alike v v₁ := .of_records hrec₁ hmode₁
  have hds₁ : Chosen v₁ leftmost ds := ⟨hrec₁ ▸ hds.kept, hds.nodup, hocc₁ ▸ hds.sum_le⟩
  have hsweep := hds₁.sweep h₁
  rw [hocc₁] at hsweep
  rw [Halting.ends_get_bind, hocc₁, Halting.ends_through_bind]
  refine (evacuate_ends hsweep (fun d hd => ?_) (by simp only [mul_blockSize] at *; omega)).mono ?_
    fun _ _ hf => hf
  · obtain ⟨c, hfind, -⟩ := hds₁.kept d hd
    rw [hfind, Option.isSome_some]
  rintro ys v₂ ⟨hids, hlens, hys, ha₂, ⟨m₂, E₂, h₂⟩, hstop₂, -, -⟩
  have ha₂ := ha₁.trans ha₂
  rw [List.map_nil, List.sum_nil] at hstop₂
  have hroomy₂ : Roomy v₂ (commits + 2 + 1) (2 * v.engine.occupancy.stop) := hv.alike ha₂ (by omega)
  rw [Halting.ends_upTo_bind, Halting.finish_through]
  refine (storeReserving_ends h₂ ((congrArg Mode.reuse ha₂.mode).trans hreuse)
    ((congrArg Mode.reserved ha₂.mode).trans hnothing) hroomy₂ (by
      change v.engine.occupancy.stop ≤ _
      omega) (by simp only [mul_blockSize] at *; omega) fun b hb => hb.2).mono ?_
    fun _ _ hf => hf
  rintro _ v₃ ⟨hc₃, hroomy₃, m₃, E₃, h₃⟩
  have hadv₃ := ha₂.advanced.trans (hc₃.advanced hroomy₂)
  have hlt : v.records.version < v₃.records.version := ha₂.version ▸ hc₃.version_lt hroomy₂
  refine (repack_ends h₂ hc₃ h₃ ((congrArg Mode.reuse hadv₃.mode).trans hreuse)
    ((congrArg Mode.reserved hadv₃.mode).trans hnothing) hroomy₃ hys (hids ▸ hds.nodup)
    (hlens ▸ hds.sum_le) hample).mono ?_ fun _ _ hf => hf
  rintro _ v' ⟨hadv, hroomy, hv'⟩
  exact ⟨rfl, hadv₃.trans hadv, UInt64.lt_of_lt_of_le hlt hadv.version_le, hroomy, hv'⟩

end BlockStore.Store
