import BlockStore.Proofs.RootReturn

namespace BlockStore

/-- From `top` on all blocks before the boundary are in use. -/
def Occupancy.Gapless (o : Occupancy) (top : Nat) : Prop := ∀ b, top ≤ b → b < o.stop → b ∈ o.used

theorem Occupancy.Gapless.stop_le {o : Occupancy} {top start n : Nat} (h : o.Gapless top)
    (hn : 0 < n) (hv : o.Vacant start n) (htop : top ≤ start) : o.stop ≤ start :=
  Nat.le_of_not_lt fun hlt => hv start (Nat.le_refl _) (by omega) (h start htop hlt)

/-- A chunk that leaves what lies before `top` goes to the boundary, if not before `low`. -/
theorem Engine.Exchanges.gapless {δ : Type} {e e' : Engine δ} {old new : Chunk} {low top : Nat}
    (h : Exchanges e (.between low top) old new e') (hgapless : e.occupancy.Gapless top)
    (hn : 0 < new.len.toNat) (hold : old.after ≤ top) :
    e'.occupancy.Gapless top := by
  have hstop : e'.occupancy.stop ≤ max e.occupancy.stop new.after := Occupancy.stop_le fun b hb => by
    rcases (h.used b hb).1 with hb | hb
    · exact lt_max_of_lt_left (Occupancy.lt_stop hb)
    · exact lt_max_of_lt_right hb.2
  have hfirst : new.first ≤ max e.occupancy.stop top :=
    Occupancy.preview_le hn h.room.preview
      (fun b hb _ hm => absurd (Occupancy.lt_stop hm) (by omega)) (.inl (Nat.le_max_right _ _))
  intro b htop hb
  refine (h.mem_used b).2 ⟨?_, fun hcov => Nat.not_lt.2 htop (Nat.lt_of_lt_of_le hcov.2 hold)⟩
  by_cases hlt : b < e.occupancy.stop
  · exact .inl (hgapless b htop hlt)
  · refine .inr ⟨by omega, by omega⟩

namespace Volume

open BlockStore.Action Engine

variable {δ κ : Type} [Keeper δ κ] {Sound : κ → Prop} {reuse : Bool} {len : Nat}
  {v u w : Volume δ κ} {c d y z old root moved : Chunk} {low top newStop n : Nat}
  {gone todo chosen : List Chunk} {ids : List UInt32} {r : Reserved}

/-- The place of the one chunk ends before that of the other begins. -/
def Before (v : Volume δ κ) (i j : UInt32) : Prop :=
  ∀ c d, v.chunk? i = some c → v.chunk? j = some d → c.after ≤ d.first

/-- The chunks that are to leave the blocks from `low` up to `top`, in the order of their places. -/
structure Leaving (v : Volume δ κ) (low top : Nat) (ids : List UInt32) : Prop where
  nodup : ids.Nodup
  place : ∀ id ∈ ids, ∃ c, v.chunk? id = some c ∧ low ≤ c.first ∧ c.after ≤ top ∧ 0 < c.len.toNat
  before : ids.Pairwise (Before v)

/-- A chunk has left its place `c` between `low` and `top`, which is vacant now. -/
structure Sent (low top : Nat) (w : Volume δ κ) (c y : Chunk) : Prop where
  found : w.chunk? y.id = some y
  len_eq : y.len = c.len
  len_pos : 0 < c.len.toNat
  outside : w.engine.occupancy.Outside (.between low top) y.first y.len.toNat
  low_le : low ≤ c.first
  le_top : c.after ≤ top
  vacant : w.engine.occupancy.Vacant c.first c.len.toNat

/-- What holds while chunks leave the blocks from `low` up to `top`, those of `gone` by now. Whatever is
in use from `top` on belongs to them or to the root, without a gap. -/
structure Evacuated (Sound : κ → Prop) (reuse : Bool) (v : Volume δ κ) (low top : Nat)
    (gone : List Chunk) (w : Volume δ κ) : Prop where
  tidy : Tidy Sound reuse w
  usedCount : w.engine.occupancy.usedCount = v.engine.occupancy.usedCount
  others : ∀ id, id ∉ gone.map Chunk.id → w.chunk? id = v.chunk? id
  sent : ∀ y ∈ gone, ∃ c, v.chunk? y.id = some c ∧ Sent low top w c y
  beyond : ∀ b ∈ w.engine.occupancy.used, top ≤ b →
    (∃ root, w.root? = some root ∧ root.Covers b) ∨ ∃ y ∈ gone, y.Covers b
  gapless : w.engine.occupancy.Gapless top

namespace Sent

/-- What is newly in use keeps off the place. -/
theorem mono (h : Sent low top w c y) (hfind : u.chunk? y.id = w.chunk? y.id)
    (hused : ∀ b ∈ u.engine.occupancy.used, b ∈ w.engine.occupancy.used ∨ d.Covers b)
    (hd : ∀ b, c.Covers b → ¬d.Covers b) : Sent low top u c y where
  found := hfind.trans h.found
  len_eq := h.len_eq
  len_pos := h.len_pos
  outside := h.outside
  low_le := h.low_le
  le_top := h.le_top
  vacant := h.vacant.of_used hused fun b hb hbn => hd b ⟨hb, hbn⟩

theorem not_covers {o : Occupancy} (h : Sent low top w c y)
    (ho : o.Outside (.between low top) d.first d.len.toNat) (b : Nat) (hb : c.Covers b) :
    ¬d.Covers b :=
  Store.not_covers_of_outside ho b (Nat.le_trans h.low_le hb.1) (Nat.lt_of_lt_of_le hb.2 h.le_top)

/-- What covers a block from `top` on begins there. -/
theorem le_first (h : Sent low top w c y) {b : Nat} (hb : y.Covers b) (htop : top ≤ b) :
    top ≤ y.first := by
  have houtside := h.outside
  have hlow := h.low_le
  have hle := h.le_top
  have hafter := hb.2
  simp only [Occupancy.Outside, Reserved.between, c.after_eq, y.after_eq] at *
  omega

end Sent

variable [Device δ]

theorem Evacuated.start (hk : Keeper.Reroots δ κ Sound len) (h : Tidy Sound reuse v)
    (hr : w.records = v.records) (ho : w.engine.occupancy = v.engine.occupancy)
    (hu : w.engine.reuse = v.engine.reuse) (low : Nat) :
    Evacuated Sound reuse v low v.engine.occupancy.stop [] w where
  tidy := h.of_same hk hr ho hu
  usedCount := congrArg Occupancy.usedCount ho
  others _ _ := congrFun (hk.lookup hr) _
  sent := nofun
  beyond _ hb hle := absurd (Occupancy.lt_stop (ho ▸ hb)) (Nat.not_lt.2 hle)
  gapless _ hle hlt := absurd (ho ▸ hlt) (Nat.not_lt.2 hle)

theorem Evacuated.shift (hk : Keeper.Reroots δ κ Sound len) (h : Evacuated Sound reuse v low top gone w)
    (hs : Shifted Sound reuse w (.between low top) c moved u) (hnew : c.id ∉ gone.map Chunk.id)
    (hc : v.chunk? c.id = some c) (hlow : low ≤ c.first) (htop : c.after ≤ top)
    (hlen : 0 < c.len.toNat) : Evacuated Sound reuse v low top (gone ++ [moved]) u := by
  have hwc : w.chunk? c.id = some c := (h.others c.id hnew).trans hc
  have hne (y : Chunk) (hy : y ∈ gone) : y.id ≠ c.id := fun heq =>
    hnew (heq ▸ List.mem_map_of_mem hy)
  have hmlen : moved.len.toNat = c.len.toNat := congrArg UInt32.toNat hs.len_eq
  refine ⟨hs.tidy, ?_, fun id hid => ?_, ?_, fun b hb hle => ?_,
    hs.gapless h.gapless (hmlen ▸ hlen) htop⟩
  · exact (hs.usedCount_eq hmlen).trans h.usedCount
  · rw [List.map_append, List.mem_append, not_or, List.map_singleton, List.mem_singleton,
      hs.id_eq] at hid
    rw [hs.others id hid.2, h.others id hid.1]
  · refine List.forall_mem_append.2 ⟨fun y hy => ?_, List.forall_mem_singleton.2 ⟨c, ?_, ?_⟩⟩
    · obtain ⟨d, hd, hsent⟩ := h.sent y hy
      exact ⟨d, hd, hsent.mono (hs.others _ (hne y hy)) (fun b hb => (hs.used b hb).1)
        (hsent.not_covers hs.room.outside)⟩
    · rw [hs.id_eq]
      exact hc
    · exact ⟨hs.id_eq ▸ hs.found, hs.len_eq, hlen, hs.room.outside, hlow, htop,
        fun b h1 h2 hb => (hs.used b hb).2 ⟨h1, h2⟩⟩
  · obtain ⟨hb | hb, hout⟩ := hs.used b hb
    · rcases h.beyond b hb hle with ⟨root, hroot, hcov⟩ | ⟨y, hy, hcov⟩
      · refine .inl ⟨root, ?_, hcov⟩
        rw [hs.root?_eq, hroot, Option.map_some, if_neg]
        -- The root would have left the block.
        intro heq
        have hknown := (hk.of_root h.tidy.sound hroot).1
        rw [heq] at hknown
        obtain rfl := Option.some.inj (hwc.symm.trans hknown)
        exact hout hcov
      · exact .inr ⟨y, List.mem_append_left _ hy, hcov⟩
    · exact .inr ⟨moved, List.mem_append_right _ List.mem_cons_self, hb⟩

theorem evacuate_sends (hk : Keeper.Reroots δ κ Sound len)
    (hl : Leaving v low top (chosen.map Chunk.id)) (h : Evacuated Sound reuse v low top [] w) :
    Ends (evacuate low top chosen) w (fun ys u => ys.map Chunk.id = chosen.map Chunk.id ∧
      Evacuated Sound reuse v low top ys u) Any := by
  refine ends_evacuate hl.nodup h ?_
  intro z hz gone u hbefore hu
  obtain ⟨c, hc, hlow, htop, hlen⟩ := hl.place _ (List.mem_map_of_mem hz)
  have hnew : z.id ∉ gone.map Chunk.id := fun hmem => by
    obtain ⟨y, hy, hid⟩ := List.mem_map.1 hmem
    exact hbefore y hy hid
  have hfind : u.chunk? z.id = some c := (hu.others _ hnew).trans hc
  have hid := hk.id_eq hc
  refine (move_shifted hk hu.tidy).mono ?_ fun _ _ hf => hf
  rintro out u' (⟨hnone, -⟩ | ⟨d, moved, hd, rfl, hs⟩)
  · exact nomatch hfind.symm.trans hnone
  obtain rfl := Option.some.inj (hfind.symm.trans hd)
  rw [← hid] at hnew hc
  exact ⟨hs.id_eq.trans hid, hu.shift hk hs hnew hc hlow htop hlen⟩

omit [Device δ] in
/-- A new root that is stored behind `top` comes last. -/
theorem Evacuated.stop_le (h : Evacuated Sound reuse v low top gone w)
    (hr : Rerooted Sound reuse w r old root u) (hlen : 0 < root.len.toNat)
    (htop : top ≤ root.first) : u.engine.occupancy.stop ≤ root.after := by
  obtain ⟨held, he⟩ := hr.exchanges
  have hstop := h.gapless.stop_le hlen he.room.vacant htop
  refine Occupancy.stop_le fun b hb => ?_
  rcases (he.used b hb).1 with hb | hb
  · rw [root.after_eq]
    have := Occupancy.lt_stop hb
    omega
  · exact hb.2

/-- What holds while those of `todo` return under a new root, unless they are not kept any longer: their
places wait for them, and whatever is in use from `top` on belongs to them or to the root. -/
structure Returning (Sound : κ → Prop) (reuse : Bool) (v : Volume δ κ) (low top newStop : Nat)
    (root : Chunk) (todo : List Chunk) (w : Volume δ κ) : Prop where
  tidy : Tidy Sound reuse w
  usedCount : w.engine.occupancy.usedCount = v.engine.occupancy.usedCount
  root?_eq : w.root? = some root
  nodup : (todo.map Chunk.id).Nodup
  before : todo.Pairwise fun y z => Before v y.id z.id
  le_first : ∀ z ∈ todo, top ≤ z.first
  waits : ∀ z ∈ todo, w.chunk? z.id = none ∨ z.id ≠ root.id ∧
    ∃ c, v.chunk? z.id = some c ∧ Sent low top w c z
  below : ∀ b ∈ w.engine.occupancy.used, top ≤ b → b < newStop
  beyond : ∀ b ∈ w.engine.occupancy.used, top ≤ b →
    root.Covers b ∨ ∃ y ∈ todo, w.chunk? y.id = some y ∧ y.Covers b

omit [Device δ] in
theorem Evacuated.returning (h : Evacuated Sound reuse v low top gone w)
    (hnodup : (gone.map Chunk.id).Nodup) (hbefore : gone.Pairwise fun y z => Before v y.id z.id)
    (hr : Rerooted Sound reuse w (.between low top) old root u)
    (hlen : root.len.toNat = old.len.toNat) : Returning Sound reuse v low top
      u.engine.occupancy.stop root (gone.filter (top ≤ ·.block.toNat)) u := by
  obtain ⟨held, he⟩ := hr.exchanges
  have hsub := List.filter_sublist (l := gone) (p := (top ≤ ·.block.toNat))
  refine ⟨hr.tidy, (he.usedCount_eq hlen).trans h.usedCount, hr.root?_eq, hnodup.sublist (hsub.map _),
    hbefore.sublist hsub, fun z hz => of_decide_eq_true (List.mem_filter.1 hz).2, fun z hz => ?_,
    fun b hb _ => Occupancy.lt_stop hb, fun b hb htop => ?_⟩
  · obtain ⟨c, hc, hsent⟩ := h.sent z (hsub.subset hz)
    by_cases hold : z.id = old.id
    · exact .inl (hold ▸ hr.lost)
    · obtain ⟨hroot, hsame⟩ := hr.stays hsent.found hold
      exact .inr ⟨hroot, c, hc, hsent.mono hsame (fun b hb => (he.used b hb).1)
        (hsent.not_covers (hr.outside low top rfl))⟩
  · obtain ⟨hb | hb, hout⟩ := he.used b hb
    · rcases h.beyond b hb htop with ⟨_, hroot, hcov⟩ | ⟨y, hy, hcov⟩
      · obtain rfl := Option.some.inj (hr.old?_eq.symm.trans hroot)
        exact absurd hcov hout
      · obtain ⟨c, hc, hsent⟩ := h.sent y hy
        have hold : y.id ≠ old.id := fun heq => by
          have hfound := hsent.found
          rw [heq] at hfound
          obtain rfl := Option.some.inj (hr.known.symm.trans hfound)
          exact hout hcov
        refine .inr ⟨y, List.mem_filter.2 ⟨hy, decide_eq_true (hsent.le_first hcov htop)⟩, ?_, hcov⟩
        exact (hr.stays hsent.found hold).2.trans hsent.found
    · exact .inl hb

namespace Returning

omit [Device δ] in
theorem skip (h : Returning Sound reuse v low top newStop root (z :: todo) w)
    (hz : w.chunk? z.id = none) : Returning Sound reuse v low top newStop root todo w where
  tidy := h.tidy
  usedCount := h.usedCount
  root?_eq := h.root?_eq
  nodup := (List.nodup_cons.1 h.nodup).2
  before := h.before.of_cons
  le_first y hy := h.le_first y (List.mem_cons_of_mem _ hy)
  waits y hy := h.waits y (List.mem_cons_of_mem _ hy)
  below := h.below
  beyond b hb htop := by
    refine (h.beyond b hb htop).imp_right fun ⟨y, hy, hfind, hcov⟩ => ?_
    rcases List.mem_cons.1 hy with rfl | hy
    · exact nomatch hz.symm.trans hfind
    · exact ⟨y, hy, hfind, hcov⟩

omit [Device δ] in
/-- What returns lies behind `top`, and its old place waits for it. -/
theorem of_some (h : Returning Sound reuse v low top newStop root (z :: todo) w)
    (hfind : w.chunk? z.id = some d) : d = z ∧ top < newStop ∧ z.id ≠ root.id ∧
      ∃ c, v.chunk? z.id = some c ∧ Sent low top w c z := by
  obtain hnone | ⟨hroot, c, hc, hsent⟩ := h.waits z List.mem_cons_self
  · exact nomatch hnone.symm.trans hfind
  have hpos : 0 < z.len.toNat := hsent.len_eq ▸ hsent.len_pos
  have hused := h.tidy.filled hsent.found z.first (Nat.le_refl _) (by omega)
  have htop := h.le_first z List.mem_cons_self
  exact ⟨Option.some.inj (hfind.symm.trans hsent.found), Nat.lt_of_le_of_lt htop (h.below _ hused htop),
    hroot, c, hc, hsent⟩

omit [Device δ] in
/-- The first of those that return finds room at its old place, if not before. -/
theorem shift (h : Returning Sound reuse v low top newStop root (z :: todo) w)
    (hs : Shifted Sound reuse w (.between top newStop) d moved u) (hfind : w.chunk? z.id = some d) :
    Returning Sound reuse v low top newStop root todo u := by
  obtain ⟨rfl, -, hroot, c, hc, hsent⟩ := h.of_some hfind
  have hlen : moved.len = c.len := hs.len_eq.trans hsent.len_eq
  have hle : moved.first ≤ c.first := Occupancy.preview_le (hlen ▸ hsent.len_pos) hs.room.preview
    (hlen ▸ hsent.vacant) (.inr (hlen ▸ hsent.le_top))
  have hafter : moved.after ≤ c.after := by
    rw [moved.after_eq, c.after_eq, hlen]
    exact Nat.add_le_add_right hle _
  have hne (y : Chunk) (hy : y ∈ todo) : y.id ≠ d.id := fun heq =>
    (List.nodup_cons.1 h.nodup).1 (heq ▸ List.mem_map_of_mem hy)
  have hused (b : Nat) (hb : b ∈ u.engine.occupancy.used) (htop : top ≤ b) :
      b ∈ w.engine.occupancy.used ∧ ¬d.Covers b := by
    obtain ⟨hb | hb, hout⟩ := hs.used b hb
    · exact ⟨hb, hout⟩
    · have := Nat.lt_of_lt_of_le hb.2 (Nat.le_trans hafter hsent.le_top)
      omega
  refine ⟨hs.tidy, (hs.usedCount_eq (congrArg UInt32.toNat hs.len_eq)).trans h.usedCount, ?_,
    (List.nodup_cons.1 h.nodup).2, h.before.of_cons,
    fun y hy => h.le_first y (List.mem_cons_of_mem _ hy), fun y hy => ?_,
    fun b hb htop => h.below b (hused b hb htop).1 htop, fun b hb htop => ?_⟩
  · rw [hs.root?_eq, h.root?_eq, Option.map_some, if_neg hroot.symm]
  · -- What has come back ends where its old place ended at the latest, before that of `y`.
    rw [hs.others _ (hne y hy)]
    refine (h.waits y (List.mem_cons_of_mem _ hy)).imp_right fun ⟨hroot, e, he, hwaits⟩ => ?_
    have hbefore : c.after ≤ e.first := (List.pairwise_cons.1 h.before).1 y hy c e hc he
    refine ⟨hroot, e, he, hwaits.mono (hs.others _ (hne y hy)) (fun b hb => (hs.used b hb).1) ?_⟩
    exact fun b hb hm => Nat.not_lt.2 (Nat.le_trans hafter (Nat.le_trans hbefore hb.1)) hm.2
  · obtain ⟨hb, hout⟩ := hused b hb htop
    refine (h.beyond b hb htop).imp_right fun ⟨y, hy, hy', hcov⟩ => ?_
    rcases List.mem_cons.1 hy with rfl | hy
    · exact absurd hcov hout
    · exact ⟨y, hy, (hs.others _ (hne y hy)).trans hy', hcov⟩

end Returning

theorem bringBack_returns (hk : Keeper.Reroots δ κ Sound len)
    (h : Returning Sound reuse v low top newStop root (gone.filter (top ≤ ·.block.toNat)) w) :
    Ends (bringBack top newStop gone) w (fun returned u =>
      Returning Sound reuse v low top newStop root [] u ∧ (returned.any Option.isSome → top < newStop))
      Any := by
  refine ends_mapM (I := fun todo done u => Returning Sound reuse v low top newStop root todo u ∧
    (done.any Option.isSome → top < newStop)) ⟨h, nofun⟩ ?_
  rintro z rest done u ⟨hu, hdone⟩
  refine (move_shifted hk hu.tidy).mono ?_ fun _ _ hf => hf
  rintro out u' (⟨hnone, rfl, rfl⟩ | ⟨c, moved, hfind, rfl, hs⟩)
  · refine ⟨hu.skip hnone, fun hany => hdone ?_⟩
    simpa using hany
  · exact ⟨hu.shift hs hfind, fun _ => (hu.of_some hfind).2.1⟩

/-- After a pass only the root is to be found from the old boundary on. -/
theorem runPass_bears (hk : Keeper.Reroots δ κ Sound len) (hlen : 0 < len) (h : Tidy Sound reuse v)
    (hl : Leaving v low v.engine.occupancy.stop (chosen.map Chunk.id))
    (hlow : low ≤ v.engine.occupancy.stop) : Ends (runPass low chosen : Action (Volume δ κ) Unit) v
      (fun _ w => ∃ rest root, Bears Sound reuse rest w root ∧
        w.engine.occupancy.usedCount = v.engine.occupancy.usedCount ∧
        (∀ b, rest b → b < v.engine.occupancy.stop) ∧
        Returned reuse rest len v.engine.occupancy.stop root) Any := by
  rw [runPass_eq]
  refine (sync_keeps (v := v)).bind ?_ fun _ _ hf => hf
  rintro _ v₁ ⟨hrecords, hocc, hreuse⟩
  rw [ends_bind, ends_get, hocc]
  dsimp only
  refine (evacuate_sends hk hl (.start hk h hrecords hocc hreuse low)).bind ?_ fun _ _ hf => hf
  rintro ys v₂ ⟨hids, hgone⟩
  refine (storeReserving_rerooted hk hgone.tidy).bind ?_ fun _ _ hf => hf
  rintro _ v₃ ⟨old, root, hr⟩
  refine (sync_keeps (v := v₃)).bind ?_ fun _ _ hf => hf
  rintro _ v₄ ⟨hrecords₄, hocc₄, hreuse₄⟩
  have hr := hr.of_same hk rfl rfl hrecords₄ hocc₄ hreuse₄
  have holdLen := (hk.of_root hgone.tidy.sound hr.old?_eq).2
  have hrootLen := (hk.of_root hr.tidy.sound hr.root?_eq).2
  have hbefore := List.pairwise_map.1 (hids.symm ▸ hl.before)
  have hback := hgone.returning (hids ▸ hl.nodup) hbefore hr (hrootLen.trans holdLen.symm)
  rw [ends_bind, ends_get, ends_bind, ends_get, hr.root?_eq]
  refine (bringBack_returns hk hback).bind ?_ fun _ _ hf => hf
  rintro returned v₅ ⟨hreturned, hany⟩
  have hbears := Bears.of_tidy hk hreturned.tidy hreturned.root?_eq
  have hrest (b : Nat) (hb : b ∈ v₅.engine.occupancy.used ∧ ¬root.Covers b) :
      b < v.engine.occupancy.stop := by
    refine Nat.lt_of_not_le fun htop => ?_
    rcases hreturned.beyond b hb.1 htop with hcov | ⟨y, hy, -⟩
    · exact hb.2 hcov
    · exact absurd hy List.not_mem_nil
  have hplace : root.after ≤ low ∨ v.engine.occupancy.stop ≤ root.first :=
    (hr.outside low _ rfl).symm
  have hafter : root.after ≤ v₄.engine.occupancy.stop :=
    (hr.tidy.filled hr.found).le_stop (hrootLen ▸ hlen)
  refine (hbears.settle_ends hk hlen hrest hlow hplace hafter
    (hgone.stop_le hr (hrootLen ▸ hlen)) hany).mono ?_ fun _ _ hf => hf
  rintro _ w ⟨last, hlast, hfits⟩
  exact ⟨_, last, hlast, (hlast.usedCount_congr hk hbears).trans hreturned.usedCount, hrest, hfits⟩

/-- The chunks that a compaction chooses leave all blocks from the first of them on. -/
theorem leaving_of_choose {first passBytes : Nat} (hk : Keeper.Reroots δ κ Sound len)
    (hs : Sound v.records) (h : Lodged v.engine.occupancy v.chunks)
    (hchoose : Compaction.choose v.engine.occupancy v.chunks first passBytes = .ok (c :: chosen)) :
    Leaving v c.first v.engine.occupancy.stop ((c :: chosen).map Chunk.id) := by
  obtain ⟨hsub, hsorted⟩ := Compaction.of_choose hchoose
  have hnodup := Chunk.nodup_ids_of_subperm hsub (hk.nodup hs)
  have hrecord (z : Chunk) (hz : z ∈ c :: chosen) : ∃ d ∈ v.chunks, v.chunk? z.id = some d ∧
      d.first = z.first := by
    obtain ⟨d, hd, hid, hfirst, -⟩ := Compaction.exists_of_choose hchoose z hz
    exact ⟨d, hd, hid ▸ (hk.mem_chunks hs).1 hd, hfirst⟩
  refine ⟨hnodup, List.forall_mem_map.2 fun z hz => ?_, List.pairwise_map.2 ?_⟩
  · obtain ⟨d, hd, hfind, hfirst⟩ := hrecord z hz
    refine ⟨d, hfind, ?_, h.after_le_stop hd, h.len_pos d hd⟩
    rw [hfirst]
    rcases List.mem_cons.1 hz with rfl | hz
    · exact Nat.le_refl _
    · exact (List.pairwise_cons.1 hsorted).1 z hz
  · refine (hsorted.and (List.pairwise_map.1 hnodup)).imp_of_mem fun {y z} hy hz ⟨hle, hne⟩ => ?_
    obtain ⟨d, hd, hfind, hfirst⟩ := hrecord y hy
    obtain ⟨e, he, hfind', hfirst'⟩ := hrecord z hz
    intro d' e' hd' he'
    obtain rfl := Option.some.inj (hfind.symm.trans hd')
    obtain rfl := Option.some.inj (hfind'.symm.trans he')
    have hde : d ≠ e := fun heq =>
      hne ((hk.id_eq hfind).symm.trans ((congrArg Chunk.id heq).trans (hk.id_eq hfind')))
    refine (h.apart_of_ne hd he hde).resolve_right fun hafter => ?_
    have hpos := h.len_pos e he
    rw [e.after_eq] at hafter
    omega

/-- A pass that succeeds leaves nothing but blocks of the root from the old boundary on. It raises the
boundary at most for a root of more than one block that does not find room twice below it, and then by
less than three roots as long as freed blocks are used again. -/
theorem compact_bounded (hk : Keeper.Reroots δ κ Sound len) (hs : Sound v.records)
    (h : Lodged v.engine.occupancy v.chunks) (passBytes : Nat) :
    Ends (compact passBytes : Action (Volume δ κ) Bool) v (fun _ w => ∃ root, w.root? = some root ∧
      (∀ b ∈ w.engine.occupancy.used, v.engine.occupancy.stop ≤ b → root.Covers b) ∧
      (w.engine.occupancy.stop ≤ v.engine.occupancy.stop ∨ 1 < len ∧
        ¬TwoHoles (fun b => b ∈ w.engine.occupancy.used ∧ ¬root.Covers b) len
          v.engine.occupancy.stop) ∧
      (v.engine.reuse = true →
        w.engine.occupancy.stop < v.engine.occupancy.stop + 3 * len)) Any := by
  have htidy := Tidy.of_lodged hk hs h
  obtain ⟨root, hroot, hknown, hlen⟩ := hk.root hs
  have hpos : 0 < len := hlen ▸ h.len_pos root ((hk.mem_chunks hs).2 hknown)
  unfold compact
  rw [ends_bind, ends_get, ends_bind]
  refine ends_of_checked fun pos hgap => ?_
  rw [ends_bind]
  refine ends_of_checked fun chosen hchoose => ?_
  cases chosen with
  | nil =>
    exact ends_pure.2 ⟨root, hroot, fun b hb hle => absurd (Occupancy.lt_stop hb) (Nat.not_lt.2 hle),
      .inl (Nat.le_refl _), fun _ => by omega⟩
  | cons c chosen =>
    have hleaving := leaving_of_choose hk hs h hchoose
    obtain ⟨d, hd, hlow, hle, hdpos⟩ := hleaving.place c.id List.mem_cons_self
    rw [d.after_eq] at hle
    have hcount : v.engine.occupancy.usedCount < v.engine.occupancy.stop := by
      obtain ⟨-, rfl⟩ := word64_eq_ok.1 hgap
      have hfirst := (Compaction.movable_of_choose hchoose c List.mem_cons_self).2.1
      rw [h.blockSize, Nat.mul_div_cancel _ (by decide)] at hfirst
      exact Occupancy.usedCount_lt (by omega) (Bitmap.nextGap_not_mem _ 0)
    refine (runPass_bears hk hpos htidy hleaving (by omega)).bind ?_ fun _ _ hf => hf
    rintro _ w ⟨rest, root, hw, husedCount, hrest, hfits⟩
    have hstop (n : Nat) (htop : v.engine.occupancy.stop ≤ n) (hafter : root.after ≤ n) :
        w.engine.occupancy.stop ≤ n := by
      refine Occupancy.stop_le fun b hb => ?_
      rcases (hw.mem_used b).1 hb with hb | hb
      · exact Nat.lt_of_lt_of_le (hrest b hb) htop
      · exact Nat.lt_of_lt_of_le hb.2 hafter
    refine ends_pure.2 ⟨root, hw.root?_eq, fun b hb htop => ?_, ?_, fun hreuse => ?_⟩
    · exact ((hw.mem_used b).1 hb).resolve_left fun hb => Nat.not_lt.2 htop (hrest b hb)
    · rw [← funext fun b => propext hw.rest_iff]
      by_cases hholes : TwoHoles rest len v.engine.occupancy.stop
      · exact .inl (hstop _ (Nat.le_refl _) (hfits.below hholes))
      · refine .inr ⟨Nat.lt_of_le_of_ne hpos ?_, hholes⟩
        rintro rfl
        exact hholes (hw.twoHoles hk hrest (husedCount ▸ hcount))
    · have hnear := hfits.near hreuse
      have := hstop (max v.engine.occupancy.stop root.after) (Nat.le_max_left _ _)
        (Nat.le_max_right _ _)
      omega

/-- A root of one block stays below the old boundary. -/
theorem compact_bounded_gapped : ∃ v w : Store Device.Memory, v.records.Rooted 1 ∧
    Lodged v.engine.occupancy v.chunks ∧ compact (2 * blockSize) v = (.ok true, w) ∧
    ∃ root, w.root? = some root ∧
      (∀ b ∈ w.engine.occupancy.used, v.engine.occupancy.stop ≤ b → root.Covers b) ∧
      w.engine.occupancy.stop ≤ v.engine.occupancy.stop := by
  obtain ⟨v, -, hv⟩ := Store.gapped_opens
  obtain ⟨w, hrun⟩ := Store.compact_gapped hv
  have hrooted : v.records.Rooted 1 := by
    refine ⟨(hv.consistent Edition.gapped_settled).orderly, ?_, ⟨Edition.gappedRoot, ?_, rfl⟩, ?_⟩
    · rw [hv.records]
      rfl
    · rw [hv.records]
      rfl
    · rw [Catalog.size_nextBytes, hv.records]
      rfl
  have hlodged : Lodged v.engine.occupancy v.chunks := by
    have hchunks : v.chunks = Edition.gapped.held := by
      rw [show v.chunks = v.records.chunks from rfl, hv.records]
      rfl
    exact hchunks ▸ hv.layout.lodged
  obtain ⟨root, hroot, hbeyond, hstop, -⟩ :=
    (compact_bounded (Catalog.reroots 1) hrooted hlodged (2 * blockSize)).ok _ _ hrun
  exact ⟨v, w, hrooted, hlodged, hrun, root, hroot, hbeyond,
    hstop.resolve_right fun h => absurd h.1 (by decide)⟩

end Volume

end BlockStore
