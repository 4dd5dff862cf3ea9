import BlockStore.Proofs.Rerooting

namespace BlockStore.Volume

open BlockStore.Action Engine

variable {δ κ : Type} [Keeper δ κ] {Sound : κ → Prop} {reuse : Bool} {rest : Nat → Prop}
  {v w : Volume δ κ} {old root : Chunk} {r : Reserved} {low top newStop boundary len n a : Nat}

/-- Twice there are `n` blocks in a row before `top` that are none of `rest`. -/
def TwoHoles (rest : Nat → Prop) (n top : Nat) : Prop :=
  ∃ a b, a + n ≤ b ∧ b + n ≤ top ∧
    ∀ i, a ≤ i ∧ i < a + n ∨ b ≤ i ∧ i < b + n → ¬rest i

/-- In use are the blocks `rest` and, apart from them, those of the root. -/
structure Bears (Sound : κ → Prop) (reuse : Bool) (rest : Nat → Prop) (w : Volume δ κ)
    (root : Chunk) : Prop where
  tidy : Tidy Sound reuse w
  root?_eq : w.root? = some root
  mem_used : ∀ b, b ∈ w.engine.occupancy.used ↔ rest b ∨ root.Covers b
  apart : ∀ b, rest b → ¬root.Covers b

/-- Where a pass leaves the root. It ends before `top` if there are two holes for it, and otherwise not
far behind as long as freed blocks are used again. -/
structure Returned (reuse : Bool) (rest : Nat → Prop) (len top : Nat) (root : Chunk) : Prop where
  below : TwoHoles rest len top → root.after ≤ top
  near : reuse = true → root.after < top + 3 * len

theorem Returned.of_le (hlen : 0 < len) (h : root.after ≤ top) : Returned reuse rest len top root :=
  ⟨fun _ => h, fun _ => by omega⟩

namespace Bears

theorem exchange (h : Bears Sound reuse rest v old) (ht : Tidy Sound reuse w)
    (he : Exchanges v.engine r old root w.engine) (hroot : w.root? = some root) :
    Bears Sound reuse rest w root := by
  have hfresh (b : Nat) (hb : root.Covers b) : ¬(rest b ∨ old.Covers b) := fun hm =>
    he.room.vacant b hb.1 hb.2 ((h.mem_used b).2 hm)
  refine ⟨ht, hroot, fun b => ?_, fun b hb hcov => hfresh b hcov (.inl hb)⟩
  rw [he.mem_used, h.mem_used]
  constructor
  · rintro ⟨(hb | hb) | hb, hout⟩
    · exact .inl hb
    · exact absurd hb hout
    · exact .inr hb
  · rintro (hb | hb)
    · exact ⟨.inl (.inl hb), h.apart b hb⟩
    · exact ⟨.inr hb, fun hold => hfresh b hb (.inr hold)⟩

theorem vacant (h : Bears Sound reuse rest v root) (hrest : ∀ i, a ≤ i → i < a + n → ¬rest i)
    (hroot : root.after ≤ a ∨ a + n ≤ root.first) : v.engine.occupancy.Vacant a n := by
  intro i h1 h2 hi
  rcases (h.mem_used i).1 hi with hi | hi
  · exact hrest i h1 h2 hi
  · obtain ⟨hfirst, hafter⟩ := hi
    omega

theorem vacant_behind (h : Bears Sound reuse rest v root) (hrest : ∀ b, rest b → b < top)
    (htop : top ≤ a) (hroot : root.after ≤ a ∨ a + n ≤ root.first) :
    v.engine.occupancy.Vacant a n :=
  h.vacant (fun i hi _ hr => Nat.not_lt.2 (Nat.le_trans htop hi) (hrest i hr)) hroot

theorem rest_iff (h : Bears Sound reuse rest v root) {b : Nat} :
    rest b ↔ b ∈ v.engine.occupancy.used ∧ ¬root.Covers b := by
  rw [h.mem_used]
  exact ⟨fun hb => ⟨.inl hb, h.apart b hb⟩, fun hb => hb.1.resolve_right hb.2⟩

theorem mem_rest (h : Bears Sound reuse rest v root) {b : Nat} :
    b ∈ v.engine.occupancy.blocks \ root.blocks ↔ rest b := by
  rw [Finset.mem_sdiff, Occupancy.mem_blocks, Chunk.mem_blocks, h.rest_iff]

variable [Device δ]

theorem of_tidy (hk : Keeper.Reroots δ κ Sound len) (h : Tidy Sound reuse v)
    (hroot : v.root? = some root) :
    Bears Sound reuse (fun b => b ∈ v.engine.occupancy.used ∧ ¬root.Covers b) v root := by
  have hfilled := h.filled (hk.of_root h.sound hroot).1
  refine ⟨h, hroot, fun b => ⟨fun hb => ?_, fun hb => ?_⟩, fun b hb => hb.2⟩
  · by_cases hcov : root.Covers b
    · exact .inr hcov
    · exact .inl ⟨hb, hcov⟩
  · exact hb.elim And.left fun hcov => hfilled b hcov.1 hcov.2

theorem of_same (hk : Keeper.Reroots δ κ Sound len) (h : Bears Sound reuse rest v root)
    (hr : w.records = v.records) (ho : w.engine.occupancy = v.engine.occupancy)
    (hu : w.engine.reuse = v.engine.reuse) : Bears Sound reuse rest w root :=
  ⟨h.tidy.of_same hk hr ho hu, (hk.root_eq hr).trans h.root?_eq, ho ▸ h.mem_used, h.apart⟩

theorem len_eq (hk : Keeper.Reroots δ κ Sound len) (h : Bears Sound reuse rest v root) :
    root.len.toNat = len :=
  (hk.of_root h.tidy.sound h.root?_eq).2

theorem after_eq (hk : Keeper.Reroots δ κ Sound len) (h : Bears Sound reuse rest v root) :
    root.after = root.first + len := by
  rw [root.after_eq, h.len_eq hk]

theorem usedCount_eq (hk : Keeper.Reroots δ κ Sound len) (h : Bears Sound reuse rest v root) :
    v.engine.occupancy.usedCount = (v.engine.occupancy.blocks \ root.blocks).card + len := by
  have hsub : root.blocks ⊆ v.engine.occupancy.blocks := fun b hb =>
    Occupancy.mem_blocks.2 ((h.mem_used b).2 (.inr (Chunk.mem_blocks.1 hb)))
  rw [Occupancy.usedCount_eq, ← h.len_eq hk, ← root.card_blocks,
    Finset.card_sdiff_add_card_eq_card hsub]

theorem usedCount_congr (hk : Keeper.Reroots δ κ Sound len) (h : Bears Sound reuse rest v root)
    (hw : Bears Sound reuse rest w old) :
    v.engine.occupancy.usedCount = w.engine.occupancy.usedCount := by
  have hrest : v.engine.occupancy.blocks \ root.blocks = w.engine.occupancy.blocks \ old.blocks := by
    ext b
    rw [h.mem_rest, hw.mem_rest]
  rw [h.usedCount_eq hk, hw.usedCount_eq hk, hrest]

/-- Where fewer blocks are in use than lie before `top`, a root of one block has two holes there. -/
theorem twoHoles (hk : Keeper.Reroots δ κ Sound 1) (h : Bears Sound reuse rest v root)
    (hrest : ∀ b, rest b → b < top) (hcount : v.engine.occupancy.usedCount < top) :
    TwoHoles rest 1 top := by
  set used := v.engine.occupancy.blocks \ root.blocks
  have hsub : used ⊆ Finset.range top := fun b hb => Finset.mem_range.2 (hrest b (h.mem_rest.1 hb))
  have hcard : 1 < (Finset.range top \ used).card := by
    have hcount' : v.engine.occupancy.usedCount = used.card + 1 := h.usedCount_eq hk
    rw [Finset.card_sdiff_of_subset hsub, Finset.card_range]
    omega
  obtain ⟨a, ha, b, hb, hne⟩ := Finset.one_lt_card.1 hcard
  have hfree {i : Nat} (hi : i ∈ Finset.range top \ used) : i < top ∧ ¬rest i :=
    ⟨Finset.mem_range.1 (Finset.mem_sdiff.1 hi).1,
      fun hr => (Finset.mem_sdiff.1 hi).2 (h.mem_rest.2 hr)⟩
  have hholes {a b : Nat} (ha : ¬rest a) (hb : b < top ∧ ¬rest b) (hlt : a < b) :
      TwoHoles rest 1 top := by
    refine ⟨a, b, hlt, hb.1, ?_⟩
    rintro i (hi | hi)
    · obtain rfl : i = a := by omega
      exact ha
    · obtain rfl : i = b := by omega
      exact hb.2
  rcases Nat.lt_or_gt_of_ne hne with hlt | hlt
  · exact hholes (hfree ha).2 (hfree hb) hlt
  · exact hholes (hfree hb).2 (hfree ha) hlt

/-- The root moves if it starts at `boundary` or behind it and there is a hole for it before that. -/
theorem moveBelow_ends (hk : Keeper.Reroots δ κ Sound len) (hlen : 0 < len)
    (h : Bears Sound reuse rest v root) : Ends (moveBelow root.id boundary) v (fun moved w =>
      (moved = false ∧ w = v ∧ (root.first < boundary ∨
        ∀ a, v.engine.occupancy.Vacant a len → boundary < a + len)) ∨
      (moved = true ∧ boundary ≤ root.first ∧ ∃ new, new.id = root.id ∧
        Bears Sound reuse rest w new ∧ new.after ≤ boundary ∧
        ∀ a, v.engine.occupancy.Vacant a len → a + len ≤ boundary → new.first ≤ a)) Any := by
  obtain ⟨hknown, hrlen⟩ := hk.of_root h.tidy.sound h.root?_eq
  unfold moveBelow
  rw [ends_bind, ends_get, hknown]
  dsimp only
  by_cases hlt : root.block.toNat < boundary
  · rw [if_pos hlt]
    exact ends_pure.2 (.inl ⟨rfl, rfl, .inl hlt⟩)
  rw [if_neg hlt, ends_bind, ends_get, ends_bind]
  refine ends_of_checked fun target hpreview => ?_
  rw [hrlen] at hpreview
  have hle (a : Nat) (hv : v.engine.occupancy.Vacant a len) (ha : a + len ≤ boundary) : target ≤ a :=
    Occupancy.preview_le hlen hpreview hv (.inl ha)
  by_cases htarget : boundary ≤ target
  · rw [if_pos htarget]
    refine ends_pure.2 (.inl ⟨rfl, rfl, .inr fun a hv => Nat.lt_of_not_le fun ha => ?_⟩)
    have := hle a hv ha
    omega
  rw [if_neg htarget]
  refine (move_shifted hk h.tidy).bind ?_ fun _ _ hf => hf
  rintro out w (⟨hnone, -⟩ | ⟨c, moved, hc, rfl, hs⟩)
  · exact nomatch hknown.symm.trans hnone
  obtain rfl := Option.some.inj (hknown.symm.trans hc)
  have hmlen : moved.len.toNat = len := (congrArg UInt32.toNat hs.len_eq).trans hrlen
  dsimp only
  rw [ends_bind]
  refine ends_of_checked fun stop hstop => ?_
  obtain ⟨-, rfl⟩ := word64_eq_ok.1 hstop
  by_cases hbeyond : boundary < moved.block.toNat + moved.len.toNat
  · rw [if_pos hbeyond, ends_bind]
    exact ends_throw.2 trivial
  rw [if_neg hbeyond]
  have hroot : w.root? = some moved := by
    rw [hs.root?_eq, h.root?_eq, Option.map_some, if_pos rfl]
  refine ends_pure.2 (.inr ⟨rfl, Nat.not_lt.1 hlt, moved, hs.id_eq,
    h.exchange hs.tidy hs.toExchanges hroot, Nat.not_lt.1 hbeyond, fun a hv ha => ?_⟩)
  exact Occupancy.preview_le (hmlen ▸ hlen) hs.room.preview (hmlen ▸ hv) (.inl (hmlen ▸ ha))

/-- A store puts the root in the first hole that is open to it. -/
theorem storeReserving_ends (hk : Keeper.Reroots δ κ Sound len)
    (h : Bears Sound reuse rest v root) : Ends (storeReserving r) v (fun _ w => ∃ new,
      Bears Sound reuse rest w new ∧ w.chunk? root.id = none ∧
      (∀ low high, r = .between low high → v.engine.occupancy.Outside r new.first len) ∧
      ∀ a, v.engine.occupancy.Vacant a len → r.Opens reuse a len → new.first ≤ a) Any := by
  refine (storeReserving_rerooted hk h.tidy).mono ?_ fun _ _ hf => hf
  rintro _ w ⟨old, new, hr⟩
  obtain rfl := Option.some.inj (h.root?_eq.symm.trans hr.old?_eq)
  obtain ⟨held, he⟩ := hr.exchanges
  have hlen := (hk.of_root hr.tidy.sound hr.root?_eq).2
  exact ⟨new, h.exchange hr.tidy he hr.root?_eq, hr.lost, hlen ▸ hr.outside, hlen ▸ hr.first_le⟩

/-- The root leaves `boundary` if it is there and finds a hole. Of two holes before `top` it moves to
the one and is stored to the other. Otherwise the free blocks from `top` on take it, twice at most. -/
theorem returnLast_ends (hk : Keeper.Reroots δ κ Sound len) (hlen : 0 < len)
    (h : Bears Sound reuse rest v root) (hrest : ∀ b, rest b → b < top) (htop : top ≤ boundary)
    (hplace : root.after ≤ top ∨ boundary ≤ root.first ∧ root.first ≤ boundary + len) :
    Ends (returnLast boundary false) v
      (fun _ w => ∃ last, Bears Sound reuse rest w last ∧ Returned reuse rest len top last) Any := by
  have hafter := h.after_eq hk
  unfold returnLast
  rw [ends_bind, ends_get, h.root?_eq]
  refine (h.moveBelow_ends hk hlen).bind ?_ fun _ _ hf => hf
  rintro movedLast w (⟨rfl, rfl, hno⟩ | ⟨rfl, hbehind, new, -, hnew, hnewAfter, hle⟩)
  · refine ends_pure.2 ⟨root, h, ?_⟩
    rcases hplace with hplace | ⟨hbehind, hfirst⟩
    · exact .of_le hlen hplace
    have hno := hno.resolve_left (Nat.not_lt.2 hbehind)
    refine ⟨fun ⟨a, b, hab, hb, hholes⟩ => ?_, fun _ => ?_⟩
    · have := hno a (h.vacant (fun i h1 h2 => hholes i (.inl ⟨h1, h2⟩)) (.inr (by omega)))
      omega
    · have hshort : boundary < top + len := by
        by_cases htop' : top + len ≤ root.first
        · exact hno top (h.vacant_behind hrest (Nat.le_refl _) (.inr htop'))
        · omega
      omega
  · refine (hnew.storeReserving_ends hk).mono ?_ fun _ _ hf => hf
    rintro _ u ⟨last, hlast, -, -, hfirst⟩
    have hnewEq := hnew.after_eq hk
    have hlastEq := hlast.after_eq hk
    refine ⟨last, hlast, fun ⟨a, b, hab, hb, hholes⟩ => ?_, ?_⟩
    · have hva := h.vacant (fun i h1 h2 => hholes i (.inl ⟨h1, h2⟩)) (.inr (by omega))
      have hnewFirst := hle a hva (by omega)
      have hvb := hnew.vacant (fun i h1 h2 => hholes i (.inr ⟨h1, h2⟩)) (.inl (by omega))
      have hlastFirst : last.first ≤ b := hfirst b hvb (.inl (Nat.le_trans hb htop))
      omega
    · rintro rfl
      have hnewFirst : new.after ≤ top + len := by
        by_cases hroom : top + len ≤ boundary
        · have := hle top (h.vacant_behind hrest (Nat.le_refl _) (.inr (by omega))) hroom
          omega
        · omega
      have hlastFirst : last.first ≤ top + len :=
        hfirst _ (hnew.vacant_behind hrest (by omega) (.inl hnewFirst)) (Reserved.opens_above _ _ _)
      omega

/-- At most three roots follow one another here. The second one is stored before `top` or at `newStop`,
which is `boundary` or at most the length of a root behind it. -/
theorem returnRoot_ends (hk : Keeper.Reroots δ κ Sound len) (hlen : 0 < len)
    (h : Bears Sound reuse rest v root) (hrest : ∀ b, rest b → b < top) {inside : Bool}
    (hstop : top ≤ newStop) (hafter : root.after ≤ newStop)
    (hlast : top ≤ root.first → newStop ≤ root.after) (hinside : root.first < top → inside = true) :
    Ends (returnRoot root inside top newStop) v
      (fun _ w => ∃ last, Bears Sound reuse rest w last ∧ Returned reuse rest len top last) Any := by
  rw [returnRoot_eq]
  refine (h.moveBelow_ends hk hlen).bind ?_ fun _ _ hf => hf
  intro moved v₁ hmoved
  obtain ⟨old, hid, hold, holdAfter⟩ : ∃ old, old.id = root.id ∧ Bears Sound reuse rest v₁ old ∧
      old.after ≤ newStop := by
    rcases hmoved with ⟨-, rfl, -⟩ | ⟨-, -, new, hid, hnew, hle, -⟩
    · exact ⟨root, rfl, h, hafter⟩
    · exact ⟨new, hid, hnew, Nat.le_trans hle hstop⟩
  refine (hold.storeReserving_ends hk).bind ?_ fun _ _ hf => hf
  rintro _ v₂ ⟨new, hnew, hlost, houtside, hfirst⟩
  refine (sync_keeps (v := v₂)).bind ?_ fun _ _ hf => hf
  rintro _ v₃ ⟨hrecords, hocc, hreuse⟩
  have hnew₃ := hnew.of_same hk hrecords hocc hreuse
  have hlost₃ : v₃.chunk? root.id = none := by
    rw [hk.lookup hrecords, ← hid]
    exact hlost
  have hrootEq := h.after_eq hk
  have hplace : new.after ≤ top ∨ new.first = newStop := by
    have holdEq := hold.after_eq hk
    have hnewEq := hnew.after_eq hk
    have hle := hfirst newStop (hold.vacant_behind hrest hstop (.inl holdAfter))
      (Reserved.opens_between (by omega) (Nat.le_refl _))
    refine (houtside top newStop rfl).symm.imp (fun hbefore => ?_) (Nat.le_antisymm hle)
    rw [hnewEq]
    exact hbefore
  set boundary := if moved || inside then newStop else root.block.toNat with hboundary
  have hbetween : top ≤ boundary ∧ boundary ≤ newStop ∧ newStop ≤ boundary + len := by
    rw [hboundary]
    split
    · omega
    · next hout =>
      have htop : top ≤ root.first := Nat.le_of_not_lt fun hlt =>
        hout (Bool.or_eq_true_iff.2 (.inr (hinside hlt)))
      have := hlast htop
      change top ≤ root.first ∧ root.first ≤ newStop ∧ newStop ≤ root.first + len
      omega
  have hreturned := hnew₃.returnLast_ends hk hlen hrest hbetween.1
    (hplace.imp_right fun heq => by omega)
  dsimp only
  split
  · rw [ends_bind, ends_pure]
    exact hreturned
  · rw [ends_bind, moveBelow, ends_bind, ends_get, hlost₃, ends_pure]
    exact hreturned

/-- A pass that has brought back all but the root brings the root back too. -/
theorem settle_ends (hk : Keeper.Reroots δ κ Sound len) (hlen : 0 < len)
    (h : Bears Sound reuse rest v root) (hrest : ∀ b, rest b → b < top)
    {returned : List (Option Chunk)} (hle : low ≤ top) (hplace : root.after ≤ low ∨ top ≤ root.first)
    (hafter : root.after ≤ newStop) (hlast : top ≤ root.first → newStop ≤ root.after)
    (hreturned : returned.any Option.isSome → top < newStop) :
    Ends (settle (some root) low top newStop returned) v
      (fun _ w => ∃ last, Bears Sound reuse rest w last ∧ Returned reuse rest len top last) Any := by
  have hrootEq := h.after_eq hk
  have htrim {u : Volume δ κ} {last : Chunk} (hu : Bears Sound reuse rest u last)
      (hlast : Returned reuse rest len top last) : Ends (onEngine do
        discard (Engine.shrink 0)
        Engine.sync) u (fun _ w => ∃ last, Bears Sound reuse rest w last ∧
          Returned reuse rest len top last) Any :=
    trim_keeps.mono (fun _ _ ⟨hr, ho, hreuse⟩ => ⟨last, hu.of_same hk hr ho hreuse, hlast⟩)
      fun _ _ _ => trivial
  unfold settle
  dsimp only [Option.all_some]
  split
  · next hcond =>
    rw [ends_bind]
    refine (h.returnRoot_ends hk hlen hrest ?_ hafter hlast fun hlt => ?_).mono
      (fun _ _ ⟨last, hw, hfits⟩ => htrim hw hfits) fun _ _ hf => hf
    · rcases Bool.or_eq_true_iff.1 hcond with hout | hany
      · rw [Bool.not_eq_true', decide_eq_false_iff_not] at hout
        change ¬root.first < low at hout
        omega
      · exact Nat.le_of_lt (hreturned hany)
    · refine decide_eq_true ?_
      change root.first < low
      omega
  · next hcond =>
    simp only [Bool.or_eq_true, Bool.not_eq_true', decide_eq_false_iff_not, not_or, not_not] at hcond
    have hin : root.first < low := hcond.1
    exact htrim h (.of_le hlen (by omega))

end Bears

end BlockStore.Volume
