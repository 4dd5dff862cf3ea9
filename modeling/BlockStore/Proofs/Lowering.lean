import BlockStore.Proofs.FirstFit
import BlockStore.Proofs.Orderly
import BlockStore.Proofs.Ranking
import BlockStore.Proofs.Stages

namespace BlockStore

open BlockStore.Action Engine Device

namespace Volume

variable {δ κ : Type} [Device δ]

theorem sync_keeps {v : Volume δ κ} : Ends (onEngine Engine.sync) v (fun _ w =>
    w.records = v.records ∧ w.engine.occupancy = v.engine.occupancy ∧
      w.engine.reuse = v.engine.reuse) Any :=
  ends_within.2 (((fixes_iff.1 sync_plan v.engine).and (fixes_iff.1 aloof_terms.sync v.engine)).mono
    (fun _ _ h => ⟨rfl, (Prod.mk.inj h.1).1, (Prod.mk.inj h.2).1⟩) fun _ _ _ => trivial)

theorem trim_keeps {v : Volume δ κ} : Ends (onEngine do
    discard (Engine.shrink 0)
    Engine.sync) v (fun _ w => w.records = v.records ∧
      w.engine.occupancy = v.engine.occupancy ∧ w.engine.reuse = v.engine.reuse) Any := by
  have hplan := fixes_iff.1 (.bind (shrink_plan 0).discard fun _ => sync_plan) v.engine
  have hterms := fixes_iff.1 (.bind (aloof_terms.shrink 0).discard fun _ => aloof_terms.sync) v.engine
  exact ends_within.2 ((hplan.and hterms).mono
    (fun _ _ h => ⟨rfl, (Prod.mk.inj h.1).1, (Prod.mk.inj h.2).1⟩) fun _ _ _ => trivial)

end Volume

/-- A range stays vacant when all that is newly in use lies apart from it. -/
theorem Occupancy.Vacant.of_used {o o' : Occupancy} {start n : Nat} {d : Chunk}
    (h : o.Vacant start n) (hused : ∀ b ∈ o'.used, b ∈ o.used ∨ d.Covers b)
    (hd : ∀ b, start ≤ b → b < start + n → ¬d.Covers b) : o'.Vacant start n :=
  fun b hb hbn hm => (hused b hm).elim (h b hb hbn) (hd b hb hbn)

namespace Store

variable {δ : Type} {v w u : Store δ} {c d y z moved : Chunk} {id : UInt32}
  {low top newStop : Nat} {gone todo : List Chunk}

/-- Each payload lies no higher in `w` than in `v`. -/
def Lowered (v w : Store δ) : Prop :=
  ∀ id c, v.records.data.find? id = some c →
    ∃ d, w.records.data.find? id = some d ∧ d.first ≤ c.first

theorem Lowered.refl (v : Store δ) : Lowered v v := fun _ c hc => ⟨c, hc, Nat.le_refl _⟩

theorem Lowered.trans (h : Lowered v w) (h' : Lowered w u) : Lowered v u := fun id c hc => by
  obtain ⟨d, hd, hdc⟩ := h id c hc
  obtain ⟨e, he, hed⟩ := h' id d hd
  exact ⟨e, he, Nat.le_trans hed hdc⟩

/-- The place of the one payload begins no higher than that of the other. -/
def Ahead (v : Store δ) (i j : UInt32) : Prop :=
  ∀ c d, v.records.data.find? i = some c → v.records.data.find? j = some d → c.first ≤ d.first

/-- The place of the one payload ends before that of the other begins. -/
def Before (v : Store δ) (i j : UInt32) : Prop :=
  ∀ c d, v.records.data.find? i = some c → v.records.data.find? j = some d → c.after ≤ d.first

/-- A payload has left its place `c` between `low` and `top`. That is vacant now, and the payload
lies further down, or at `top` or behind it. -/
structure Sent (low top : Nat) (w : Store δ) (c y : Chunk) : Prop where
  find?_eq : w.records.data.find? y.id = some y
  len_eq : y.len = c.len
  moved : y.first ≤ c.first ∨ top ≤ y.first
  low_le : low ≤ c.first
  le_top : c.after ≤ top
  vacant : w.engine.occupancy.Vacant c.first c.len.toNat

/-- What holds while chunks leave the blocks from `low` up to `top`, those of `gone` by now, in the
order of their places. -/
structure Evacuated (v : Store δ) (low top : Nat) (gone : List Chunk) (w : Store δ) : Prop where
  inOrder : InOrder w
  isSome_eq : ∀ id, (w.records.data.find? id).isSome = (v.records.data.find? id).isSome
  lt_nextId : ∀ y ∈ gone, y.id < w.records.nextId
  others : ∀ id, id ∉ gone.map Chunk.id → w.records.data.find? id = v.records.data.find? id
  sent : ∀ y ∈ gone, ∀ c, v.records.data.find? y.id = some c → Sent low top w c y
  before : gone.Pairwise fun y z => Before v y.id z.id

/-- What is newly in use keeps off the vacant places. -/
theorem Sent.mono (h : Sent low top w c y)
    (hfind : u.records.data.find? y.id = w.records.data.find? y.id)
    (hused : ∀ b ∈ u.engine.occupancy.used, b ∈ w.engine.occupancy.used ∨ d.Covers b)
    (hd : ∀ b, low ≤ b → b < top → ¬d.Covers b) : Sent low top u c y where
  find?_eq := hfind.trans h.find?_eq
  len_eq := h.len_eq
  moved := h.moved
  low_le := h.low_le
  le_top := h.le_top
  vacant := h.vacant.of_used hused fun b hb hbn =>
    hd b (Nat.le_trans h.low_le hb) (Nat.lt_of_lt_of_le hbn h.le_top)

theorem not_covers_of_outside {o : Occupancy}
    (h : o.Outside (.between low top) d.first d.len.toNat) (b : Nat) (hlow : low ≤ b)
    (htop : b < top) : ¬d.Covers b :=
  h.not_closed ⟨hlow, top, rfl, htop⟩

/-- Where chunks may not go to the blocks from `low` up to `top`, one that leaves them goes further
down or to `top` or behind it. -/
theorem Sent.of_shift (hs : Shift w (.between low top) c moved u)
    (hc : w.records.data.find? c.id = some c) (hplace : low ≤ c.first ∧ c.after ≤ top) :
    Sent low top u c moved where
  find?_eq := by rw [hs.data_find?, hs.id_eq, hc, Option.map_some, if_pos rfl]
  len_eq := hs.len_eq
  moved := by
    have houtside := hs.room.outside
    simp only [Occupancy.Outside, Reserved.between] at houtside
    omega
  low_le := hplace.1
  le_top := hplace.2
  vacant b hb hbn hm := (hs.used b hm).2 ⟨hb, hbn⟩

namespace Evacuated

/-- A chunk that is no longer kept is passed over. -/
theorem skip (h : Evacuated v low top gone w) (hw : z.id < w.records.nextId)
    (hz : w.records.data.find? z.id = none) : Evacuated v low top (gone ++ [z]) w := by
  have hnone : v.records.data.find? z.id = none := by
    rw [← Option.not_isSome_iff_eq_none, ← h.isSome_eq, hz]
    exact Bool.false_ne_true
  refine ⟨h.inOrder, h.isSome_eq, ?_, fun id hid => h.others id fun hmem => hid ?_, ?_, ?_⟩
  · exact List.forall_mem_append.2 ⟨h.lt_nextId, List.forall_mem_singleton.2 hw⟩
  · rw [List.map_append]
    exact List.mem_append_left _ hmem
  · refine List.forall_mem_append.2 ⟨h.sent, List.forall_mem_singleton.2 fun c hc => ?_⟩
    exact nomatch hnone.symm.trans hc
  · refine List.pairwise_append.2 ⟨h.before, List.pairwise_singleton .., fun y _ x hx c d _ hd => ?_⟩
    obtain rfl := List.mem_singleton.1 hx
    exact nomatch hnone.symm.trans hd

/-- The place that a chunk leaves lies apart from those left before. -/
theorem before_of_shift (h : Evacuated v low top gone w) (hy : y ∈ gone)
    (hs : Shift w (.between low top) c moved u) (hc : low ≤ c.first ∧ c.after ≤ top)
    (hlen : 0 < c.len.toNat) (hd : v.records.data.find? y.id = some d) (hdc : d.first ≤ c.first) :
    d.after ≤ c.first := by
  have hsent := h.sent y hy d hd
  refine Nat.le_of_not_lt fun hlt => ?_
  have hcb : c.Covers c.first := ⟨Nat.le_refl _, by rw [c.after_eq]; omega⟩
  have hdb : d.first ≤ c.first ∧ c.first < d.first + d.len.toNat := ⟨hdc, hlt⟩
  rcases hs.filled c.first hcb with hm | hm
  · exact hsent.vacant c.first hdb.1 hdb.2 hm
  · exact not_covers_of_outside hs.room.outside c.first hc.1
      (Nat.lt_of_lt_of_le hcb.2 hc.2) hm

/-- A chunk that has not left yet is in its place. -/
theorem at_home (h : Evacuated v low top gone w) (hfind : w.records.find? c.id = some c)
    (hnew : c.id ∉ gone.map Chunk.id) (hd : v.records.data.find? c.id = some d) :
    d = c ∧ w.records.data.find? c.id = some c := by
  have hc : w.records.data.find? c.id = some c :=
    Catalog.data_find?_of_find? hfind (by rw [h.others c.id hnew, hd]; rfl)
  exact ⟨Option.some.inj (hd.symm.trans ((h.others c.id hnew).symm.trans hc)), hc⟩

theorem shift (h : Evacuated v low top gone w) (hs : Shift w (.between low top) c moved u)
    (hw : c.id < w.records.nextId) (hfind : w.records.find? c.id = some c)
    (hnew : c.id ∉ gone.map Chunk.id)
    (hplace : ∀ d, v.records.data.find? c.id = some d → low ≤ d.first ∧ d.after ≤ top)
    (hahead : ∀ y ∈ gone, Ahead v y.id c.id) :
    Evacuated v low top (gone ++ [moved]) u := by
  have hclear := not_covers_of_outside hs.room.outside
  have hused (b : Nat) (hb : b ∈ u.engine.occupancy.used) := (hs.used b hb).1
  have hne (y : Chunk) (hy : y ∈ gone) : c.id ≠ y.id := fun heq =>
    hnew (heq ▸ List.mem_map_of_mem hy)
  refine ⟨hs.inOrder, fun id => (hs.isSome_data_find? id).trans (h.isSome_eq id), ?_, fun id hid => ?_,
    ?_, ?_⟩
  · rw [hs.nextId]
    exact List.forall_mem_append.2 ⟨h.lt_nextId, List.forall_mem_singleton.2 (hs.id_eq ▸ hw)⟩
  · rw [List.map_append, List.mem_append, not_or, List.map_singleton, List.mem_singleton, hs.id_eq] at hid
    rw [hs.data_find?_of_ne (Ne.symm hid.2), h.others id hid.1]
  · refine List.forall_mem_append.2 ⟨fun y hy d hd => ?_, List.forall_mem_singleton.2 fun d hd => ?_⟩
    · exact (h.sent y hy d hd).mono (hs.data_find?_of_ne (hne y hy)) hused hclear
    · rw [hs.id_eq] at hd
      obtain ⟨rfl, hc⟩ := h.at_home hfind hnew hd
      exact .of_shift hs hc (hplace d hd)
  · refine List.pairwise_append.2 ⟨h.before, List.pairwise_singleton .., fun y hy x hx d e hd he => ?_⟩
    obtain rfl := List.mem_singleton.1 hx
    rw [hs.id_eq] at he
    obtain ⟨rfl, hc⟩ := h.at_home hfind hnew he
    exact h.before_of_shift hy hs (hplace e he) (h.inOrder.records.len_pos_of_find? hc) hd
      (hahead y hy d e hd he)

variable [Device δ]

/-- A chunk leaves its place, behind those that have left theirs. -/
theorem step (h : Evacuated v low top gone w) (hw : z.id < w.records.nextId)
    (hnew : z.id ∉ gone.map Chunk.id)
    (hplace : ∀ c, v.records.data.find? z.id = some c → low ≤ c.first ∧ c.after ≤ top)
    (hahead : ∀ y ∈ gone, Ahead v y.id z.id) :
    Ends (Volume.move z.id (.between low top)) w (fun out u => (out.getD z).id = z.id ∧
      u.records.nextId = w.records.nextId ∧ Evacuated v low top (gone ++ [out.getD z]) u) Any := by
  refine (move_shifts h.inOrder).mono ?_ fun _ _ _ => trivial
  rintro out u (⟨hnone, rfl, rfl⟩ | ⟨c, moved, hfind, rfl, hs⟩)
  · exact ⟨rfl, rfl, h.skip hw (Option.or_eq_none_iff.1 hnone).1⟩
  · obtain hid : c.id = z.id := Catalog.id_of_find? hfind
    rw [← hid] at hw hnew hplace hahead hfind ⊢
    exact ⟨hs.id_eq, hs.nextId, h.shift hs hw hfind hnew hplace hahead⟩

end Evacuated

/-- What is to leave the blocks from `low` up to `top`, in the order of the places. -/
structure Leaving (v : Store δ) (low top : Nat) (ids : List UInt32) : Prop where
  nodup : ids.Nodup
  lt_nextId : ∀ id ∈ ids, id < v.records.nextId
  place : ∀ id ∈ ids, ∀ c, v.records.data.find? id = some c → low ≤ c.first ∧ c.after ≤ top
  ahead : ids.Pairwise (Ahead v)

variable [Device δ] {chosen : List Chunk}

theorem evacuate_sends (h : Leaving v low top (chosen.map Chunk.id)) (hw : InOrder w)
    (hrecords : w.records = v.records) : Ends (Volume.evacuate low top chosen) w
      (fun ys u => ys.map Chunk.id = chosen.map Chunk.id ∧ Evacuated v low top ys u) Any := by
  refine (Volume.ends_evacuate (h.nodup.and h.ahead) (I := fun gone u =>
    u.records.nextId = v.records.nextId ∧ Evacuated v low top gone u)
    ⟨by rw [hrecords], hw, by simp [hrecords], nofun, by simp [hrecords], nofun, .nil⟩ ?_).mono
    (fun _ _ hu => ⟨hu.1, hu.2.2⟩) fun _ _ hf => hf
  rintro z hz gone u hbefore ⟨hnext, hu⟩
  have hz := List.mem_map_of_mem (f := Chunk.id) hz
  have hnew : z.id ∉ gone.map Chunk.id := fun hmem => by
    obtain ⟨y, hy, hid⟩ := List.mem_map.1 hmem
    exact (hbefore y hy).1 hid
  refine (hu.step (hnext ▸ h.lt_nextId _ hz) hnew (h.place _ hz) fun y hy => (hbefore y hy).2).mono ?_
    fun _ _ hf => hf
  exact fun out u' hu' => ⟨hu'.1, hu'.2.1.trans hnext, hu'.2.2⟩

omit [Device δ] in
theorem Evacuated.of_same (h : Evacuated v low top gone w) (hr : u.records = w.records)
    (ho : u.engine.occupancy = w.engine.occupancy) : Evacuated v low top gone u where
  inOrder := ⟨hr ▸ h.inOrder.records, ho ▸ h.inOrder.blockSize⟩
  isSome_eq := hr ▸ h.isSome_eq
  lt_nextId := hr ▸ h.lt_nextId
  others := hr ▸ h.others
  sent y hy c hc :=
    have hsent := h.sent y hy c hc
    { hsent with find?_eq := hr ▸ hsent.find?_eq, vacant := ho ▸ hsent.vacant }
  before := h.before

/-- The root of a commit goes on none of the places that have been left, where these are reserved. -/
theorem Evacuated.renewed (h : Evacuated v low top gone w)
    (hr : Renewed ⟨w.engine.reserving (.between low top), w.records⟩ u) :
    Evacuated v low top gone u ∧
      ∀ y ∈ gone, v.records.data.find? y.id = none → u.records.find? y.id = none := by
  obtain ⟨hu, hdata, hnext, root, hroot, hid, houtside, hused⟩ := hr
  dsimp only at hdata hnext hid
  have hlt : w.records.nextId < u.records.nextId := by
    rw [UInt32.lt_iff_toNat_lt, hnext]
    exact Nat.lt_succ_self _
  have hsent (y : Chunk) (hy : y ∈ gone) (c : Chunk) (hc : v.records.data.find? y.id = some c) :
      Sent low top u c y := by
    have hy := h.sent y hy c hc
    have htop : 0 < top := by
      have hlen := h.inOrder.records.len_pos_of_find? hy.find?_eq
      have hle := hy.le_top
      rw [hy.len_eq] at hlen
      rw [c.after_eq] at hle
      omega
    rw [heldBack_between (e := w.engine.reserving (.between low top)) rfl htop] at houtside
    exact hy.mono (by rw [hdata]) hused (not_covers_of_outside houtside)
  refine ⟨⟨hu, hdata ▸ h.isSome_eq, fun y hy => UInt32.lt_trans (h.lt_nextId y hy) hlt,
    hdata ▸ h.others, hsent, h.before⟩, fun y hy hnone => Option.or_eq_none_iff.2 ⟨?_, ?_⟩⟩
  · rw [← Option.not_isSome_iff_eq_none, hdata, h.isSome_eq, hnone]
    exact Bool.false_ne_true
  · rw [hroot, Option.filter_some, if_neg]
    exact fun heq => UInt32.ne_of_lt (h.lt_nextId y hy) ((of_decide_eq_true heq).symm.trans hid)

theorem Evacuated.storeReserving (h : Evacuated v low top gone w) :
    Ends (Volume.storeReserving (.between low top)) w (fun _ u => Evacuated v low top gone u ∧
      ∀ y ∈ gone, v.records.data.find? y.id = none → u.records.find? y.id = none) Any := by
  unfold Volume.storeReserving
  rw [ends_bind, ends_modify]
  have hw : InOrder (⟨w.engine.reserving (.between low top), w.records⟩ : Store δ) :=
    ⟨h.inOrder.records, h.inOrder.blockSize⟩
  refine Ends.attempted (commit_renews hw).discard ?_ fun _ _ => ends_refusing
  rintro _ u hr
  obtain ⟨hu, hgone⟩ := h.renewed hr
  rw [ends_bind, ends_modify]
  exact ends_pure.2 ⟨hu.of_same rfl rfl, hgone⟩

/-- What holds while those of `todo` return: their places before `top` wait for them, and all other
payloads lie no higher than in `v`. -/
structure Returning (v : Store δ) (top : Nat) (todo : List Chunk) (w : Store δ) : Prop where
  inOrder : InOrder w
  isSome_eq : ∀ id, (w.records.data.find? id).isSome = (v.records.data.find? id).isSome
  gone : ∀ z ∈ todo, v.records.data.find? z.id = none → w.records.find? z.id = none
  waits : ∀ z ∈ todo, ∀ c, v.records.data.find? z.id = some c →
    (∀ d, w.records.data.find? z.id = some d → d.len = c.len) ∧ c.after ≤ top ∧
      w.engine.occupancy.Vacant c.first c.len.toNat
  before : todo.Pairwise fun y z => Before v y.id z.id
  nodup : (todo.map Chunk.id).Nodup
  lowered : ∀ id c, v.records.data.find? id = some c → id ∉ todo.map Chunk.id →
    ∃ d, w.records.data.find? id = some d ∧ d.first ≤ c.first

omit [Device δ] in
theorem Evacuated.returning (h : Evacuated v low top gone w) (hnodup : (gone.map Chunk.id).Nodup)
    (hgone : ∀ y ∈ gone, v.records.data.find? y.id = none → w.records.find? y.id = none) :
    Returning v top (gone.filter (top ≤ ·.block.toNat)) w := by
  have hsub := List.filter_sublist (l := gone) (p := (top ≤ ·.block.toNat))
  refine ⟨h.inOrder, h.isSome_eq, fun z hz => hgone z (hsub.subset hz), fun z hz c hc => ?_,
    h.before.sublist hsub, hnodup.sublist (hsub.map _), fun id c hc hid => ?_⟩
  · have hs := h.sent z (hsub.subset hz) c hc
    refine ⟨fun d hd => ?_, hs.le_top, hs.vacant⟩
    obtain rfl := Option.some.inj (hs.find?_eq.symm.trans hd)
    exact hs.len_eq
  · by_cases hmem : id ∈ gone.map Chunk.id
    · obtain ⟨y, hy, rfl⟩ := List.mem_map.1 hmem
      have hs := h.sent y hy c hc
      refine ⟨y, hs.find?_eq, hs.moved.resolve_right fun htop => hid ?_⟩
      exact List.mem_map_of_mem (List.mem_filter.2 ⟨hy, decide_eq_true htop⟩)
    · exact ⟨c, (h.others id hmem).trans hc, Nat.le_refl _⟩

namespace Returning

omit [Device δ] in
theorem skip (h : Returning v top (z :: todo) w) (hz : w.records.find? z.id = none) :
    Returning v top todo w := by
  refine ⟨h.inOrder, h.isSome_eq, fun y hy => h.gone y (List.mem_cons_of_mem _ hy),
    fun y hy => h.waits y (List.mem_cons_of_mem _ hy), h.before.of_cons,
    (List.nodup_cons.1 h.nodup).2, fun id c hc hid => h.lowered id c hc fun hmem => ?_⟩
  rcases List.mem_cons.1 hmem with rfl | hmem
  · have hsome := h.isSome_eq z.id
    rw [(Option.or_eq_none_iff.1 hz).1, hc] at hsome
    exact Bool.false_ne_true hsome
  · exact hid hmem

omit [Device δ] in
/-- The first of those that return finds room at its old place, if not before. -/
theorem lands (h : Returning v top (z :: todo) w) (hs : Shift w (.between top newStop) d moved u)
    (hfind : w.records.find? z.id = some d) :
    w.records.data.find? z.id = some d ∧
      ∃ c, v.records.data.find? z.id = some c ∧ moved.first ≤ c.first ∧ moved.after ≤ c.after := by
  obtain ⟨c, hc⟩ : ∃ c, v.records.data.find? z.id = some c := by
    refine Option.ne_none_iff_exists'.1 fun hnone => ?_
    exact nomatch hfind.symm.trans (h.gone z List.mem_cons_self hnone)
  have hd : w.records.data.find? z.id = some d :=
    Catalog.data_find?_of_find? hfind (by rw [h.isSome_eq, hc]; rfl)
  obtain ⟨hlen, htop, hvacant⟩ := h.waits z List.mem_cons_self c hc
  have hlen : moved.len = c.len := hs.len_eq.trans (hlen d hd)
  have hpos : 0 < moved.len.toNat := hs.len_eq ▸ h.inOrder.records.len_pos_of_find? hd
  have hle : moved.first ≤ c.first :=
    Occupancy.preview_le hpos hs.room.preview (hlen ▸ hvacant) (.inr (hlen ▸ htop))
  refine ⟨hd, c, hc, hle, ?_⟩
  rw [moved.after_eq, c.after_eq, hlen]
  exact Nat.add_le_add_right hle _

omit [Device δ] in
theorem shift (h : Returning v top (z :: todo) w) (hs : Shift w (.between top newStop) d moved u)
    (hid : d.id = z.id) (hfind : w.records.find? z.id = some d) : Returning v top todo u := by
  have hne (y : Chunk) (hy : y ∈ todo) : y.id ≠ d.id := fun heq =>
    (List.nodup_cons.1 h.nodup).1 (hid ▸ heq ▸ List.mem_map_of_mem hy)
  obtain ⟨hd, c, hc, hle, hafter⟩ := h.lands hs hfind
  refine ⟨hs.inOrder, fun id => (hs.isSome_data_find? id).trans (h.isSome_eq id), fun y hy hnone => ?_,
    fun y hy e he => ?_, h.before.of_cons, (List.nodup_cons.1 h.nodup).2, fun id e he hnot => ?_⟩
  · rw [hs.find?_of_ne _ (hne y hy)]
    exact h.gone y (List.mem_cons_of_mem _ hy) hnone
  · -- What has come back ends where its old place ended at the latest, before that of `y`.
    obtain ⟨hlens, htop, hv⟩ := h.waits y (List.mem_cons_of_mem _ hy) e he
    have hbefore : c.after ≤ e.first := (List.pairwise_cons.1 h.before).1 y hy c e hc he
    rw [hs.data_find?_of_ne (hne y hy).symm]
    refine ⟨hlens, htop, hv.of_used (fun b hb => (hs.used b hb).1) fun b hb _ hm => ?_⟩
    exact Nat.not_lt.2 (Nat.le_trans hafter (Nat.le_trans hbefore hb)) hm.2
  · by_cases heq : d.id = id
    · obtain rfl : c = e := Option.some.inj (hc.symm.trans ((hid ▸ heq : z.id = id) ▸ he))
      refine ⟨moved, ?_, hle⟩
      rw [hs.data_find?, ← heq, hid, hd, Option.map_some, if_pos rfl]
    · rw [hs.data_find?_of_ne heq]
      refine h.lowered id e he fun hmem => ?_
      rcases List.mem_cons.1 hmem with rfl | hmem
      · exact heq hid
      · exact hnot hmem

theorem step (h : Returning v top (z :: todo) w) :
    Ends (Volume.move z.id (.between top newStop)) w (fun _ u => Returning v top todo u) Any := by
  refine (move_shifts h.inOrder).mono ?_ fun _ _ _ => trivial
  rintro out u (⟨hnone, -, rfl⟩ | ⟨c, moved, hfind, -, hs⟩)
  · exact h.skip hnone
  · exact h.shift hs (Catalog.id_of_find? hfind) hfind

end Returning

theorem bringBack_lowers (h : Evacuated v low top gone w) (hnodup : (gone.map Chunk.id).Nodup)
    (hgone : ∀ y ∈ gone, v.records.data.find? y.id = none → w.records.find? y.id = none) :
    Ends (Volume.bringBack top newStop gone) w (fun _ u => Returning v top [] u) Any :=
  ends_mapM (I := fun todo _ u => Returning v top todo u) (h.returning hnodup hgone)
    fun _ _ _ _ hu => hu.step

/-- As long as no payload moves, the payloads stay where they are. -/
theorem lasting_data (D : Roster) : Lasting (fun id => D.find? id = none)
    fun w : Store δ => InOrder w ∧ w.records.data = D where
  sync _ h := ⟨InOrder.onEngine aloof_terms.sync _ h.1, h.2⟩
  trim _ h := ⟨lasting_inOrder.trim _ h.1, h.2⟩
  reserve _ _ h := ⟨⟨h.1.records, h.1.blockSize⟩, h.2⟩
  commit := preserves_iff.2 fun _ h => (commit_renews h.1).mono
    (fun _ _ hw => ⟨hw.inOrder, hw.data.trans h.2⟩) fun _ _ hw => ⟨hw.1, hw.2.trans h.2⟩
  move {id} _ hid := preserves_iff.2 fun w h => (move_shifts h.1).mono (fun _ u hu => by
    rcases hu with ⟨-, -, rfl⟩ | ⟨c, _, hfind, -, hs⟩
    · exact h
    · obtain rfl := Catalog.id_of_find? hfind
      rw [← h.2] at hid
      have hdata := hs.data
      rw [hid] at hdata
      exact ⟨hs.inOrder, hdata.trans h.2⟩) fun _ _ hu => ⟨hu.1, (hu.2 (h.2 ▸ hid)).trans h.2⟩
  root h hroot := h.2 ▸ h.1.records.root_absent hroot

theorem settle_keeps {D : Roster} {root? : Option Chunk}
    (hroot : ∀ root, root? = some root → D.find? root.id = none) (leftmost oldStop newStop : Nat)
    (returned : List (Option Chunk)) :
    Preserves (fun w : Store δ => InOrder w ∧ w.records.data = D)
      (Volume.settle root? leftmost oldStop newStop returned) := by
  have h := lasting_data (δ := δ) D
  unfold Volume.settle
  refine .ite ?_ h.trim
  cases root? with
  | none => exact h.trim
  | some root => exact .bind (h.returnRoot (hroot root rfl) _ _ _) fun _ => h.trim

/-- The course of a pass from `v` to `w`: the chunks leave, the catalog is stored, the chunks that went
behind the end of `v` return, and the root follows. -/
structure Stages (v : Store δ) (leftmost : Nat) (moves evacuated : List Chunk)
    (returned : List (Option Chunk)) (sent stored back w : Store δ) : Prop where
  evacuate : ∃ start, Volume.onEngine Engine.sync v = (.ok (), start) ∧
    Volume.evacuate leftmost v.engine.occupancy.stop moves start = (.ok evacuated, sent)
  store : ∃ written, Volume.storeReserving (.between leftmost v.engine.occupancy.stop) sent =
    (.ok (), written) ∧ Volume.onEngine Engine.sync written = (.ok (), stored)
  bringBack : Volume.bringBack v.engine.occupancy.stop stored.engine.occupancy.stop evacuated stored =
    (.ok returned, back)
  settle : Volume.settle stored.records.root leftmost v.engine.occupancy.stop
    stored.engine.occupancy.stop returned back = (.ok (), w)

theorem runPass_stages (leftmost : Nat) (moves : List Chunk) : Ends (Volume.runPass leftmost moves) v
    (fun _ w => ∃ evacuated returned sent stored back,
      Stages v leftmost moves evacuated returned sent stored back w) Any := by
  rw [Volume.runPass_eq]
  refine (ends_run.and Volume.sync_keeps).bind ?_ fun _ _ _ => trivial
  rintro _ start ⟨hstart, -, hocc, -⟩
  rw [ends_bind, ends_get, hocc]
  dsimp only
  refine ends_run.bind (fun evacuated sent hsent => ?_) fun _ _ hf => hf
  refine ends_run.bind (fun _ written hwritten => ?_) fun _ _ hf => hf
  refine ends_run.bind (fun _ stored hstored => ?_) fun _ _ hf => hf
  rw [ends_bind, ends_get, ends_bind, ends_get]
  refine ends_run.bind (fun returned back hback => ?_) fun _ _ hf => hf
  exact ends_run.mono (fun _ w hw => ⟨evacuated, returned, sent, stored, back,
    ⟨start, hstart, hsent⟩, ⟨written, hwritten, hstored⟩, hback, hw⟩) fun _ _ hf => hf

/-- From the evacuation to the return the payloads come down, and the rest leaves them there. -/
theorem Stages.lowered {evacuated : List Chunk} {returned : List (Option Chunk)}
    {sent stored back : Store δ} (h : Stages v low chosen evacuated returned sent stored back w)
    (hv : InOrder v) (hleaving : Leaving v low v.engine.occupancy.stop (chosen.map Chunk.id)) :
    Lowered v back ∧ w.records.data = back.records.data := by
  obtain ⟨⟨start, hstart, hsent⟩, ⟨written, hwritten, hstored⟩, hback, hw⟩ := h
  obtain ⟨hrecords, hocc, -⟩ := Volume.sync_keeps.ok _ _ hstart
  have hstartOrder : InOrder start := ⟨hrecords ▸ hv.records, hocc ▸ hv.blockSize⟩
  obtain ⟨hids, hgone⟩ := (evacuate_sends hleaving hstartOrder hrecords).ok _ _ hsent
  obtain ⟨hgone', hroots⟩ := hgone.storeReserving.ok _ _ hwritten
  obtain ⟨hrecords', hocc', -⟩ := Volume.sync_keeps.ok _ _ hstored
  have hgone'' := hgone'.of_same hrecords' hocc'
  have hreturned := (bringBack_lowers hgone'' (hids ▸ hleaving.nodup) (hrecords' ▸ hroots)).ok _ _ hback
  have hroot (root : Chunk) (hr : stored.records.root = some root) :
      back.records.data.find? root.id = none := by
    rw [← Option.not_isSome_iff_eq_none, hreturned.isSome_eq, ← hgone''.isSome_eq,
      hgone''.inOrder.records.root_absent hr]
    exact Bool.false_ne_true
  have hkept := settle_keeps hroot low v.engine.occupancy.stop stored.engine.occupancy.stop returned
    back ⟨hreturned.inOrder, rfl⟩
  rw [hw] at hkept
  exact ⟨fun id c hc => hreturned.lowered id c hc List.not_mem_nil, hkept.2⟩

/-- The chunks that a pass over `v` moves. -/
def Chooses (v : Store δ) (passBytes : Nat) (moves : List Chunk) : Prop :=
  ∃ pos, v.engine.occupancy.firstGapPos = .ok pos ∧
    Compaction.choose v.engine.occupancy v.chunks (pos / blockSize) passBytes = .ok moves

theorem Chooses.leaving {passBytes : Nat} {moves : List Chunk} (hv : InOrder v)
    (h : Chooses v passBytes (c :: moves)) :
    Leaving v c.first v.engine.occupancy.stop ((c :: moves).map Chunk.id) := by
  obtain ⟨pos, -, hchoose⟩ := h
  obtain ⟨hsub, hsorted⟩ := Compaction.of_choose hchoose
  have hnodup := Chunk.nodup_ids_of_subperm hsub hv.records.nodup
  have hrecord := Compaction.exists_of_choose hchoose
  have hplace (z : Chunk) (hz : z ∈ c :: moves) (d : Chunk)
      (hd : v.records.data.find? z.id = some d) : d.first = z.first ∧ d.len = z.len := by
    obtain ⟨e, he, hez, hsame⟩ := hrecord z hz
    obtain ⟨hd, hid⟩ := Roster.find?_eq_some.1 hd
    obtain rfl : e = d := List.inj_on_of_nodup_map hv.records.nodup he
      (Catalog.mem_chunks.2 (.inl hd)) (hez.trans hid.symm)
    exact hsame
  refine ⟨hnodup, ?_, ?_, ?_⟩
  · refine List.forall_mem_map.2 fun z hz => ?_
    obtain ⟨e, he, hez, -⟩ := hrecord z hz
    exact hez ▸ hv.records.lt _ (List.mem_map_of_mem he)
  · refine List.forall_mem_map.2 fun z hz d hd => ?_
    obtain ⟨hfirst, hlen⟩ := hplace z hz d hd
    refine ⟨?_, ?_⟩
    · rw [hfirst]
      rcases List.mem_cons.1 hz with rfl | hz
      · exact Nat.le_refl _
      · exact (List.pairwise_cons.1 hsorted).1 z hz
    · have hfilled := (Compaction.movable_of_choose hchoose z hz).filled hv.blockSize
      rw [← hfirst, ← hlen] at hfilled
      exact hfilled.le_stop (hv.records.len_pos_of_find? hd)
  · refine List.pairwise_map.2 (hsorted.imp_of_mem fun hy hz hle d e hd he => ?_)
    rw [(hplace _ hy d hd).1, (hplace _ hz e he).1]
    exact hle

theorem compact_stages {passBytes : Nat} : Ends (Volume.compact passBytes) v (fun moved w =>
    moved = false ∧ Chooses v passBytes [] ∧ w = v ∨
      moved = true ∧ ∃ c moves, Chooses v passBytes (c :: moves) ∧
        ∃ evacuated returned sent stored back,
          Stages v c.first (c :: moves) evacuated returned sent stored back w) Any := by
  unfold Volume.compact
  rw [ends_bind, ends_get, ends_bind]
  refine ends_of_checked fun pos hpos => ?_
  rw [ends_bind]
  refine ends_of_checked fun chosen hchoose => ?_
  cases chosen with
  | nil => exact ends_pure.2 (.inl ⟨rfl, ⟨pos, hpos, hchoose⟩, rfl⟩)
  | cons c moves =>
    refine (runPass_stages c.first (c :: moves)).bind ?_ fun _ _ hf => hf
    exact fun _ w hw => ends_pure.2 (.inr ⟨rfl, c, moves, ⟨pos, hpos, hchoose⟩, hw⟩)

theorem pass_lowers (passBytes : Nat) (hv : InOrder v) :
    Ends (Volume.compact passBytes) v (fun _ w => InOrder w ∧ Lowered v w) Any := by
  have hkept := preserves_iff.1 (lasting_inOrder.pass (fun _ => trivial) passBytes) v hv
  refine (compact_stages.and hkept).mono ?_ fun _ _ _ => trivial
  rintro moved w ⟨⟨-, -, rfl⟩ | ⟨-, c, moves, hchooses, _, _, _, _, back, hstages⟩, hw⟩
  · exact ⟨hw, .refl _⟩
  · obtain ⟨hback, hdata⟩ := hstages.lowered hv (hchooses.leaving hv)
    exact ⟨hw, fun id d hd => hdata ▸ hback id d hd⟩

theorem compact_comes_down (target passBytes : Nat) (hv : InOrder v) :
    Ends (compact target passBytes) v (fun _ w => InOrder w ∧ Lowered v w) Any := by
  unfold compact
  rw [ends_bind, ends_get]
  split
  · exact ends_pure.2 ⟨hv, .refl v⟩
  rw [ends_bind]
  refine ends_of_checked fun rate _ => ?_
  split
  · exact ends_pure.2 ⟨hv, .refl v⟩
  split
  · exact pass_lowers passBytes hv
  · refine (commit_renews hv).discard.bind (fun _ t ht => ?_) fun _ _ _ => trivial
    refine (pass_lowers passBytes ht.inOrder).mono (fun _ w hw => ⟨hw.1, ?_⟩) fun _ _ hf => hf
    exact fun id c hc => hw.2 id c (ht.data ▸ hc)

theorem compactAll_comes_down (spare target passBytes : Nat) (hv : InOrder v) :
    Ends (compactAll spare target passBytes) v (fun _ w => InOrder w ∧ Lowered v w) Any := by
  induction spare generalizing v with
  | zero => exact compact_comes_down target passBytes hv
  | succ spare ih =>
    refine (compact_comes_down target passBytes hv).bind (fun going t ht => ?_) fun _ _ hf => hf
    split
    · refine (ih ht.1).discard.bind (fun _ w hw => ?_) fun _ _ hf => hf
      exact ends_pure.2 ⟨hw.1, ht.2.trans hw.2⟩
    · exact ends_pure.2 ht

theorem maintain_comes_down (spare : Nat) (hv : InOrder v) :
    Ends (maintain spare) v (fun _ w => InOrder w ∧ Lowered v w) Any := by
  unfold maintain
  rw [ends_bind, ends_get]
  dsimp only
  split
  · exact ends_pure.2 ⟨hv, .refl v⟩
  rw [ends_bind]
  refine ends_of_checked fun rate _ => ?_
  split
  · exact ends_pure.2 ⟨hv, .refl v⟩
  · exact compactAll_comes_down spare _ _ hv

end Store

namespace Edition

/-- A chunk of two blocks behind a gap of one. -/
def behindGap : Chunk := { id := 1, block := 4, len := 2, version := 1, size := 5000, liveSize := 5000 }

def gappedRoot : Chunk := { id := 2, block := 2, len := 1, version := 1, size := 68, liveSize := 68 }

def gapped : Edition := ⟨1, some gappedRoot, 3, [behindGap]⟩

def gappedBytes : ByteArray :=
  Change.apply (Change.apply (Change.apply .empty (.write 0 gapped.superblock.toBytes))
    (.write (gappedRoot.first * blockSize) (Frame.framed gappedRoot gapped.imageBytes)))
    (.write (behindGap.first * blockSize) (Frame.framed behindGap (Bytes.zeros 5000)))

theorem gapped_sound : gapped.Sound where
  blank := nofun
  root := by
    rintro _ ⟨⟩
    rfl
  plain := by decide
  ascending := List.pairwise_singleton ..
  ids_nodup := by decide
  ids_lt := by decide
  apart := List.pairwise_pair.2 (.inr (by decide))
  header_le := by decide
  len_pos := by decide

theorem gapped_fits : Frame.Fits gappedRoot gapped.imageBytes ∧
    Frame.Fits behindGap (Bytes.zeros 5000) := by
  refine ⟨⟨by decide, by decide⟩, ?_⟩
  constructor <;> rw [Bytes.size_zeros] <;> decide

theorem size_gappedBytes : gappedBytes.size = 6 * blockSize := by
  rw [gappedBytes, Change.size_apply_write, Change.size_apply_write, Change.size_apply_write,
    Superblock.size_toBytes, Frame.size_framed gapped_fits.1, Frame.size_framed gapped_fits.2]
  rfl

theorem gapped_settled : gapped.Settled ⟨gappedBytes, []⟩
    fun id => if id = 1 then some (Bytes.zeros 5000) else none := by
  obtain ⟨hfits, hfits'⟩ := gapped_fits
  have hspares : (Change.write (behindGap.first * blockSize)
      (Frame.framed behindGap (Bytes.zeros 5000))).Spares gappedRoot :=
    Chunk.Apart.spares_write (.inr (by decide)) (Frame.size_framed hfits')
  refine ⟨gapped_sound, ⟨fun root hr => ?_, fun c hc => ?_, fun id p hid => ?_⟩, ?_, nofun, nofun⟩
  · obtain rfl := Option.some.inj hr
    have hroot := (Carries.of_write (Change.apply .empty (.write 0 gapped.superblock.toBytes))
      hfits).change hspares
    exact hroot
  · obtain rfl := List.mem_singleton.1 hc
    exact ⟨_, rfl, .of_write _ hfits'⟩
  · split at hid
    · next h => exact ⟨_, List.mem_singleton_self _, h.symm⟩
    · cases hid
  · have hcalm : ∀ ch ∈ [Change.write (gappedRoot.first * blockSize)
        (Frame.framed gappedRoot gapped.imageBytes), .write (behindGap.first * blockSize)
        (Frame.framed behindGap (Bytes.zeros 5000))], ch.Avoids 0 headerBytes := by
      intro ch hch
      rcases List.mem_pair.1 hch with rfl | rfl <;> exact .inr (by decide)
    have h := (Superblock.Names.of_write gapped.superblock .empty).foldl hcalm
    rwa [List.foldl_cons, List.foldl_cons, List.foldl_nil] at h

end Edition

namespace Store

variable {v : Store Memory}

theorem gapped_opens : ∃ v : Store Memory, openOn {} { bytes := Edition.gappedBytes } = .ok v ∧
    Opened {} ⟨Edition.gappedBytes, []⟩ Edition.gapped v := by
  have hshows : Lawful.Shows ({ bytes := Edition.gappedBytes } : Memory) ⟨Edition.gappedBytes, []⟩ := by
    refine ⟨rfl, rfl, ?_⟩
    change Edition.gappedBytes.size < _
    rw [Edition.size_gappedBytes]
    decide
  exact openOn_of_read hshows Edition.gapped_settled.read_content ⟨rfl, by decide⟩

variable (hv : Opened {} ⟨Edition.gappedBytes, []⟩ Edition.gapped v)

include hv

theorem stop_gapped_le : v.engine.occupancy.stop ≤ 6 := by
  have hheld : ∀ c ∈ Edition.gapped.held, c.after ≤ 6 := by decide
  refine Occupancy.stop_le fun b hb => ?_
  rcases (hv.layout.mem_used b).1 hb with hb | ⟨c, hc, hb⟩
  · exact Nat.lt_trans hb (by decide)
  · exact Nat.lt_of_lt_of_le hb.2 (hheld c hc)

theorem nextGap_gapped_lt : v.engine.occupancy.used.nextGap 0 < Edition.behindGap.first := by
  have hheld : ∀ c ∈ Edition.gapped.held, ¬(c.first ≤ 3 ∧ 3 < c.after) := by decide
  refine Nat.lt_of_not_le fun hle => ?_
  rcases (hv.layout.mem_used 3).1 (Bitmap.mem_of_lt_nextGap (Nat.zero_le 3) hle) with hb | ⟨c, hc, hb⟩
  · exact absurd hb (by decide)
  · exact hheld c hc hb

/-- The chunk fits into the budget, so it is chosen. -/
theorem not_chooses_nil_gapped : ¬Chooses v (2 * blockSize) [] := by
  rintro ⟨pos, hpos, hchoose⟩
  have hlayout := hv.layout
  have hbound : v.engine.occupancy.stop * blockSize < UInt64.size :=
    Nat.lt_of_le_of_lt (Nat.mul_le_mul_right _ (stop_gapped_le hv)) (by decide)
  have hblock : 0 < v.engine.occupancy.blockSize := by
    rw [hlayout.blockSize]
    decide
  have hchunks : v.chunks = [Edition.behindGap, Edition.gappedRoot] := by
    rw [show v.chunks = v.records.chunks from rfl, hv.records]
    rfl
  rw [Occupancy.firstGapPos_eq hlayout.blockSize hbound] at hpos
  obtain rfl := Except.ok.inj hpos
  rw [Nat.mul_div_cancel _ (by decide), hchunks, Compaction.choose_eq_of_saved _ _ hblock (by decide),
    Nat.mul_div_cancel 2 (by decide), if_neg (by decide)] at hchoose
  have hfilled := hlayout.filled (List.mem_append_left _ (List.mem_singleton_self Edition.behindGap))
  have hlens : ∀ d ∈ [Edition.behindGap, Edition.gappedRoot], d.len.toNat ≤ 2 := by decide
  obtain ⟨d, hd, -⟩ := Compaction.exists_mem_sorted List.mem_cons_self
    ((Compaction.movable_iff hlayout.blockSize).2 ⟨by decide, nextGap_gapped_lt hv, hfilled⟩)
    fun d hd _ _ => hlens d hd
  rw [Except.ok.inj hchoose] at hd
  exact nomatch hd

theorem compact_gapped : ∃ w, Volume.compact (2 * blockSize) v = (.ok true, w) := by
  have hmono := Nat.add_le_add_right (Nat.mul_le_mul_left 3 (stop_gapped_le hv)) (3 * Chunk.maxBlocks)
  have hroomy : Roomy v (0 + 3) v.engine.occupancy.stop := by
    refine ⟨?_, ?_, ?_, Nat.le_refl _⟩ <;> rw [hv.records] <;> decide
  have hample : Ample Memory v.engine.occupancy.stop := by
    refine ⟨Nat.lt_of_le_of_lt (Nat.mul_le_mul_right _ hmono) (by decide), ?_⟩
    exact Nat.lt_of_le_of_lt (Nat.mul_le_mul_right _ (Nat.mul_le_mul_right _ hmono)) (by decide)
  have hends : Ends (Volume.compact (2 * blockSize)) v (fun moved _ => moved = true) fun _ _ => False := by
    have hpass : (Volume.compactToStore (2 * blockSize)).Ends v _ _ :=
      pass_ends (hv.consistent Edition.gapped_settled) (congrArg Mode.reuse hv.mode)
        (congrArg Mode.reserved hv.mode) hroomy hample
    have hdone := hpass.finish
    rw [Volume.finish_compactToStore] at hdone
    refine (hdone.and compact_stages).mono ?_ fun _ _ hf => hf.1.1
    rintro moved w ⟨-, ⟨-, hnil, -⟩ | ⟨hmoved, -⟩⟩
    · exact absurd hnil (not_chooses_nil_gapped hv)
    · exact hmoved
  obtain ⟨moved, w, hrun, rfl⟩ := hends.total
  exact ⟨w, hrun⟩

end Store

namespace Store

variable {δ : Type} [Device δ] {v w : Store δ}

/-- A pass that succeeds moves no payload up. In particular a chunk that had to go behind the end of
the store to make way returns to a place that is no higher than the one it left. -/
theorem compact_lowers {passBytes : Nat} {moved : Bool} (hv : Arisen v)
    (hrun : Volume.compact passBytes v = (.ok moved, w)) :
    Lowered v w ∧ (moved = true → ∃ c moves evacuated returned sent stored back,
      Chooses v passBytes (c :: moves) ∧
      Stages v c.first (c :: moves) evacuated returned sent stored back w ∧
      ∀ d ∈ c :: moves, ∀ old new, v.records.data.find? d.id = some old →
        sent.records.data.find? d.id = some new → v.engine.occupancy.stop ≤ new.first →
        ∃ last, back.records.data.find? d.id = some last ∧ last.first ≤ old.first) := by
  rcases compact_stages.ok _ _ hrun with
    ⟨rfl, -, rfl⟩ | ⟨rfl, c, moves, hchooses, evacuated, returned, sent, stored, back, hstages⟩
  · exact ⟨.refl _, nofun⟩
  · obtain ⟨hback, hw⟩ := hstages.lowered hv.inOrder (hchooses.leaving hv.inOrder)
    refine ⟨fun id d hd => hw ▸ hback id d hd, fun _ => ⟨c, moves, evacuated, returned, sent, stored,
      back, hchooses, hstages, fun d _ old _ hold _ _ => hback d.id old hold⟩⟩

/-- In the gap there is no room for the chunk: it goes behind the end, and returns from there. -/
theorem compact_lowers_gapped : ∃ v w : Store Memory, Arisen v ∧
    Volume.compact (2 * blockSize) v = (.ok true, w) ∧ Lowered v w ∧
    ∃ c moves evacuated returned sent stored back, Chooses v (2 * blockSize) (c :: moves) ∧
      Stages v c.first (c :: moves) evacuated returned sent stored back w ∧
      ∀ d ∈ c :: moves, ∀ old new, v.records.data.find? d.id = some old →
        sent.records.data.find? d.id = some new → v.engine.occupancy.stop ≤ new.first →
        ∃ last, back.records.data.find? d.id = some last ∧ last.first ≤ old.first := by
  obtain ⟨v, hopen, hv⟩ := gapped_opens
  have harisen : Arisen v := .opened hopen (hv.consistent Edition.gapped_settled).orderly
  obtain ⟨w, hrun⟩ := compact_gapped hv
  obtain ⟨hlowered, hmoved⟩ := compact_lowers harisen hrun
  exact ⟨v, w, harisen, hrun, hlowered, hmoved rfl⟩

end Store

/-- Requests for compactions that succeed move no payload up, however many passes they make. -/
theorem Request.run_comes_down {δ : Type} [Device δ] {v w : Store δ} {q : Request} {reply : Reply}
    (hv : Store.Arisen v) (hq : q.Compacts) (hrun : q.run v = (.ok reply, w)) :
    Store.Lowered v w := by
  suffices hends : Ends q.run v (fun _ w => Store.Lowered v w) Any from hends.ok _ _ hrun
  have hdone {act : Action (Store δ) Bool}
      (h : Ends act v (fun _ w => Store.InOrder w ∧ Store.Lowered v w) Any) :
      Ends (discard act >>= fun _ => pure Reply.done) v (fun _ w => Store.Lowered v w) Any :=
    h.discard.bind (fun _ _ ht => ends_pure.2 ht.2) fun _ _ hf => hf
  cases q with
  | compact target passBytes => exact hdone (Store.compact_comes_down target passBytes hv.inOrder)
  | compactAll spare target passBytes =>
    exact hdone (Store.compactAll_comes_down spare target passBytes hv.inOrder)
  | maintain spare => exact hdone (Store.maintain_comes_down spare hv.inOrder)
  | _ => exact hq.elim

end BlockStore
