import BlockStore.Proofs.CatalogTolerance
import BlockStore.Proofs.Selection
import BlockStore.Proofs.Stages

namespace BlockStore.Volume

open BlockStore.Action Bytes Device Engine Keeper

variable {δ κ : Type} [Device δ] [Fallible δ] [Keeper δ κ] {A : Conduct κ} {v₀ v w : Volume δ κ}
  {s₀ : Site δ} {b : ByteArray} {D : Inventory} {c d : Chunk} {ds : List Chunk}
  {n low high top boundary passBytes : Nat}

/-- Room for a pass over a file that ends with block `reach`, if each store needs at most `growth`
blocks. -/
structure Leeway (δ : Type) [Device δ] [Fallible δ] (reach growth : Nat) : Prop where
  room : (3 * reach + 3 * growth) * blockSize < Fallible.room δ
  percent : (3 * reach + 3 * growth) * blockSize * 100 < UInt64.size

omit [Keeper δ κ] in
theorem Leeway.mono {reach reach' growth : Nat} (h : Leeway δ reach growth) (hle : reach' ≤ reach) :
    Leeway δ reach' growth := by
  obtain ⟨hroom, hpercent⟩ := h
  constructor
  · simp only [mul_blockSize] at *
    omega
  · simp only [mul_blockSize] at *
    omega

/-- A chunk of `s₀`, wherever it has gone since. -/
def Known (s₀ : Site δ) (d : Chunk) : Prop :=
  ∃ c ∈ s₀.inventory.chunks, c.id = d.id ∧ c.len = d.len

omit [Keeper δ κ] in
/-- What goes by the id of a chunk of `s₀` is as long as that chunk. -/
theorem Seen.len_eq (h : Seen A s₀ n v b D) (hs₀ : s₀.Sound) (hd : Known s₀ d)
    (hc : c ∈ D.chunks) (hid : c.id = d.id) : c.len = d.len := by
  obtain ⟨c₀, hc₀, hid₀, hlen₀⟩ := hd
  have hpast : s₀.inventory.past c.id := by
    rw [hid, ← hid₀]
    exact hs₀.past c₀ hc₀
  obtain ⟨c₁, hc₁, hcc₁, -⟩ := h.descends.kept c hc hpast
  have hid₁ : c.id = c₁.id := by rw [hcc₁]
  have hlen₁ : c.len = c₁.len := by rw [hcc₁]
  obtain rfl : c₁ = c₀ := List.inj_on_of_nodup_map hs₀.ids_nodup hc₁ hc₀ (by
    rw [← hid₁, hid, hid₀])
  rw [hlen₁, hlen₀]

/-- One move of a sweep, for a chunk that may have gone. -/
theorem sweep_endures (hA : Tolerant δ A) (hs₀ : s₀.Sound) (h : Under A v₀ s₀ n v b D)
    (hd : Known s₀ d)
    (hroom : (max v.engine.appendFrom high + d.len.toNat) * blockSize < Fallible.room δ) :
    Ends (move d.id (.between low high)) v (fun out w =>
      (w.engine.appendFrom ≤ max v.engine.appendFrom high + d.len.toNat ∧
        ∀ moved, out = some moved → Known s₀ moved ∧ moved.len = d.len) ∧
      ∃ b D, Under A v₀ s₀ n w b D) (Broken A v₀ s₀) := by
  have hstop : v.engine.occupancy.stop ≤ v.engine.appendFrom := Nat.le_max_right _ _
  have hlt := room_lt_word (δ := δ)
  cases hfind : v.chunk? d.id with
  | none =>
    refine (move_endures_none hfind).mono ?_ fun _ _ => False.elim
    rintro _ _ ⟨rfl, rfl⟩
    exact ⟨⟨by omega, fun _ hm => by cases hm⟩, b, D, h⟩
  | some c =>
    obtain ⟨hc, hid, -⟩ := h.mem_of_chunk? hA hfind
    have hlen := h.len_eq hs₀ hd hc hid
    have hn := h.sound.lodged.len_pos c (Inventory.mem_held_of_chunks hc)
    have hceil : v.engine.occupancy.ceiling (.between low high) =
      max v.engine.occupancy.stop high := rfl
    obtain ⟨start, hpreview, hle, -⟩ := Occupancy.preview_spec (o := v.engine.occupancy)
      (r := .between low high) hn (by
        rw [hceil, hlen]
        simp only [mul_blockSize] at *
        omega)
    have hmove : CanMove v c (.between low high) start := by
      refine ⟨hpreview, ?_, ?_, fun hno => by cases hno⟩
      · rw [hceil, hlen]
        simp only [mul_blockSize] at *
        omega
      · rw [hceil] at hle
        rw [hlen]
        simp only [mul_blockSize] at *
        omega
    refine (move_endures hA h hfind hmove).mono ?_ fun _ _ hf => hf
    rintro _ w ⟨⟨rfl, happend⟩, hw⟩
    rw [hceil] at hle
    rw [hlen] at happend
    refine ⟨⟨by omega, ?_⟩, hw⟩
    rintro _ ⟨⟩
    obtain ⟨c₀, hc₀, hid₀, hlen₀⟩ := hd
    exact ⟨⟨c₀, hc₀, hid₀.trans hid.symm, hlen₀.trans hlen.symm⟩, hlen⟩

/-- The chunks leave their blocks one after the other. -/
theorem evacuate_endures (top : Nat) (hA : Tolerant δ A) (hs₀ : s₀.Sound) (h : Under A v₀ s₀ n v b D)
    (hds : ∀ d ∈ ds, Known s₀ d) (htop : max v.engine.appendFrom high + blocksOf ds ≤ top)
    (hroom : top * blockSize < Fallible.room δ) :
    Ends (evacuate low high ds) v (fun ys w =>
      w.engine.appendFrom ≤ top ∧ (∀ y ∈ ys, Known s₀ y) ∧ blocksOf ys = blocksOf ds ∧
      ∃ b D, Under A v₀ s₀ n w b D) (Broken A v₀ s₀) := by
  refine (ends_mapM (I := fun todo ys w => max w.engine.appendFrom high + blocksOf todo ≤ top ∧
    (∀ d ∈ todo, Known s₀ d) ∧ (∀ y ∈ ys, Known s₀ y) ∧
    blocksOf ys + blocksOf todo = blocksOf ds ∧ ∃ b D, Under A v₀ s₀ n w b D)
    ⟨htop, hds, List.forall_mem_nil _, Nat.zero_add _, b, D, h⟩ ?_).mono ?_ fun _ _ hf => hf
  · rintro d rest ys v₁ ⟨htop₁, hrest, hys, hsum, b₁, D₁, h₁⟩
    have hd := hrest d List.mem_cons_self
    rw [blocksOf_cons] at htop₁ hsum
    refine (sweep_endures hA hs₀ h₁ hd ?_).bind ?_ fun _ _ hf => hf
    · simp only [mul_blockSize] at *
      omega
    rintro out v₂ ⟨⟨happend, hout⟩, hw⟩
    have hy : Known s₀ (out.getD d) ∧ (out.getD d).len = d.len := by
      cases out with
      | none => exact ⟨hd, rfl⟩
      | some moved => exact hout moved rfl
    refine ends_pure.2 ⟨by omega, fun e he => hrest e (List.mem_cons_of_mem _ he), ?_, ?_, hw⟩
    · exact List.forall_mem_append.2 ⟨hys, List.forall_mem_singleton.2 hy.1⟩
    · rw [blocksOf_append, blocksOf_cons, hy.2]
      change _ + (_ + 0) + _ = _
      omega
  · rintro ys v₁ ⟨htop₁, -, hys, hsum, hw⟩
    exact ⟨by omega, hys, hsum, hw⟩

/-- Those that are still there go back. -/
theorem return_endures (top : Nat) (hA : Tolerant δ A) (hs₀ : s₀.Sound) (h : Under A v₀ s₀ n v b D)
    (hds : ∀ d ∈ ds, Known s₀ d) (htop : max v.engine.appendFrom high + blocksOf ds ≤ top)
    (hroom : top * blockSize < Fallible.room δ) :
    Ends (ds.mapM fun c => move c.id (.between low high)) v (fun _ w =>
      w.engine.appendFrom ≤ top ∧ ∃ b D, Under A v₀ s₀ n w b D) (Broken A v₀ s₀) := by
  refine (ends_mapM (I := fun todo _ w => max w.engine.appendFrom high + blocksOf todo ≤ top ∧
    (∀ d ∈ todo, Known s₀ d) ∧ ∃ b D, Under A v₀ s₀ n w b D) ⟨htop, hds, b, D, h⟩ ?_).mono ?_
    fun _ _ hf => hf
  · rintro d rest outs v₁ ⟨htop₁, hrest, b₁, D₁, h₁⟩
    rw [blocksOf_cons] at htop₁
    refine (sweep_endures hA hs₀ h₁ (hrest d List.mem_cons_self) ?_).mono ?_ fun _ _ hf => hf
    · simp only [mul_blockSize] at *
      omega
    · rintro out v₂ ⟨⟨happend, -⟩, hw⟩
      exact ⟨by omega, fun e he => hrest e (List.mem_cons_of_mem _ he), hw⟩
  · rintro outs v₁ ⟨htop₁, -, hw⟩
    exact ⟨by omega, hw⟩

/-- What has become the root goes back as well, and the records are stored once more if need be. -/
theorem returnLast_endures (hA : Tolerant δ A) (h : Under A v₀ s₀ (n + 1) v b D)
    (htop : v.engine.appendFrom ≤ top + A.growth)
    (hroom : (top + 2 * A.growth) * blockSize < Fallible.room δ)
    (hword : 2 * (top + A.growth) * blockSize < UInt64.size) (boundary : Nat) (movedLate : Bool) :
    Ends (returnLast boundary movedLate) v (fun _ w =>
        w.engine.appendFrom ≤ top + 2 * A.growth ∧ ∃ n b D, Under A v₀ s₀ n w b D)
      (Broken A v₀ s₀) := by
  refine ends_returnLast movedLate (I := fun w => w.engine.appendFrom ≤ top + A.growth ∧
    ∃ b D, Under A v₀ s₀ (n + 1) w b D) ⟨htop, b, D, h⟩ (fun last _ => ?_) ?_ ?_
  · refine (moveBelow_endures hA h ?_).mono
      (fun _ w ⟨hle, hw⟩ => ⟨Nat.le_trans hle htop, hw⟩) fun _ _ hf => hf
    simp only [mul_blockSize] at *
    omega
  · rintro w ⟨hle, b', D', hw⟩
    refine (storeReserving_endures hA hw (r := .above boundary) ?_).mono ?_ fun _ _ hf => hf
    · change (max _ 0 + _) * _ < _
      simp only [mul_blockSize] at *
      omega
    · rintro _ u ⟨hle', b₁, D₁, hu⟩
      change u.engine.appendFrom ≤ max _ 0 + _ at hle'
      exact ⟨by omega, _, b₁, D₁, hu⟩
  · rintro w ⟨hle, b', D', hw⟩
    exact ⟨by omega, _, b', D', hw⟩

/-- The root goes back, with up to two more stores. -/
theorem returnRoot_endures (top : Nat) (hA : Tolerant δ A) (h : Under A v₀ s₀ (n + 2) v b D) (root : Chunk)
    (inside : Bool) (htop : max v.engine.appendFrom high ≤ top)
    (hroom : (top + 2 * A.growth) * blockSize < Fallible.room δ)
    (hword : 2 * (top + A.growth) * blockSize < UInt64.size) :
    Ends (returnRoot root inside low high) v (fun _ w =>
      w.engine.appendFrom ≤ top + 2 * A.growth ∧ ∃ n b D, Under A v₀ s₀ n w b D)
      (Broken A v₀ s₀) := by
  rw [returnRoot_eq]
  refine (moveBelow_endures hA h ?_).bind ?_ fun _ _ hf => hf
  · simp only [mul_blockSize] at *
    omega
  rintro moved v₁ ⟨hle₁, b₁, D₁, h₁⟩
  refine (storeReserving_endures hA h₁ (r := .between low high) ?_).bind ?_ fun _ _ hf => hf
  · change (max _ high + _) * _ < _
    simp only [mul_blockSize] at *
    omega
  rintro _ v₂ ⟨hle₂, b₂, D₂, h₂⟩
  change v₂.engine.appendFrom ≤ max _ high + _ at hle₂
  refine (sync_endures hA h₂).bind ?_ fun _ _ hf => hf
  rintro _ v₃ ⟨hle₃, b₃, D₃, h₃⟩
  dsimp only
  split
  · rw [ends_bind, ends_pure]
    exact returnLast_endures hA h₃ (by omega) hroom hword _ _
  · refine (moveBelow_endures hA h₃ ?_).bind ?_ fun _ _ hf => hf
    · simp only [mul_blockSize] at *
      omega
    rintro movedLate v₄ ⟨hle₄, b₄, D₄, h₄⟩
    exact returnLast_endures hA h₄ (by omega) hroom hword _ _

omit [Device δ] [Fallible δ] [Keeper δ κ] in
theorem ends_onEngine_discard {α β : Type} {act : Action (Engine δ) α} {next : Action (Engine δ) β}
    {Q : β → Volume δ κ → Prop} {E : Failure → Volume δ κ → Prop} :
    Ends (onEngine do
      discard act
      next) v Q E ↔ Ends (onEngine act) v (fun _ w => Ends (onEngine next) w Q E) E := by
  simp only [onEngine, ends_within, ends_bind, ends_discard]

/-- A pass keeps the chunks wherever it ends. -/
theorem runPass_endures (hA : Tolerant δ A) (hs₀ : s₀.Sound) (h : Under A v₀ s₀ (n + 3) v b D)
    {leftmost reach : Nat} (hds : ∀ d ∈ ds, Known s₀ d) (hreach : v.engine.appendFrom ≤ reach)
    (hsum : blocksOf ds ≤ reach) (hroom : Leeway δ reach A.growth) :
    Ends (runPass leftmost ds) v (fun _ w => ∃ n b D, Under A v₀ s₀ n w b D) (Broken A v₀ s₀) := by
  obtain ⟨hroom, hpercent⟩ := hroom
  unfold runPass
  refine (sync_endures hA h).bind ?_ fun _ _ hf => hf
  rintro _ v₁ ⟨hle₁, b₁, D₁, h₁⟩
  have hstop₁ : v₁.engine.occupancy.stop ≤ v₁.engine.appendFrom := Nat.le_max_right _ _
  rw [ends_bind, ends_get]
  refine (evacuate_endures (2 * reach) hA hs₀ h₁ hds (by omega)
    (by simp only [mul_blockSize] at *; omega)).bind ?_ fun _ _ hf => hf
  rintro ys v₂ ⟨hle₂, hys, hlens, b₂, D₂, h₂⟩
  refine (storeReserving_endures hA h₂ (r := .between leftmost v₁.engine.occupancy.stop) ?_).bind ?_
    fun _ _ hf => hf
  · change (max _ v₁.engine.occupancy.stop + _) * _ < _
    simp only [mul_blockSize] at *
    omega
  rintro _ v₃ ⟨hle₃, b₃, D₃, h₃⟩
  change _ ≤ max _ v₁.engine.occupancy.stop + _ at hle₃
  refine (sync_endures hA h₃).bind ?_ fun _ _ hf => hf
  rintro _ v₄ ⟨hle₄, b₄, D₄, h₄⟩
  have hstop₄ : v₄.engine.occupancy.stop ≤ v₄.engine.appendFrom := Nat.le_max_right _ _
  have hback : blocksOf (ys.filter (v₁.engine.occupancy.stop ≤ ·.block.toNat)) ≤ reach := by
    rw [← hlens] at hsum
    exact Nat.le_trans ((List.filter_sublist.map _).sum_le_sum fun _ _ => Nat.zero_le _) hsum
  rw [ends_bind, ends_get, ends_bind, ends_get]
  dsimp only
  refine (return_endures (3 * reach + A.growth) hA hs₀ h₄
    (fun d hd => hys d (List.mem_filter.1 hd).1) (by omega)
    (by simp only [mul_blockSize] at *; omega)).bind ?_ fun _ _ hf => hf
  rintro outs v₅ ⟨hle₅, b₅, D₅, h₅⟩
  have htrim {m : Nat} {u : Volume δ κ} {b' : ByteArray} {D' : Inventory}
      (hle : u.engine.appendFrom ≤ 3 * reach + 3 * A.growth) (hu : Under A v₀ s₀ m u b' D') :
      Ends (onEngine do
        discard (Engine.shrink 0)
        Engine.sync) u (fun _ w => ∃ n b D, Under A v₀ s₀ n w b D) (Broken A v₀ s₀) := by
    rw [ends_onEngine_discard]
    refine (shrink_endures hA hu (by simp only [mul_blockSize] at *; omega)).mono ?_ fun _ _ hf => hf
    rintro _ u₁ ⟨-, b₆, D₆, h₆⟩
    refine (sync_endures hA h₆).mono (fun _ u₂ hu₂ => ?_) fun _ _ hf => hf
    obtain ⟨-, b₇, D₇, h₇⟩ := hu₂
    exact ⟨_, b₇, D₇, h₇⟩
  split
  · split
    · next root hroot =>
      refine (returnRoot_endures (3 * reach + A.growth) hA h₅ root _ (by omega)
        (by simp only [mul_blockSize] at *; omega) (by simp only [mul_blockSize] at *; omega)).bind ?_
        fun _ _ hf => hf
      rintro _ v₆ ⟨hle₆, m, b₆, D₆, h₆⟩
      exact htrim (by omega) h₆
    · exact htrim (by omega) h₅
  · exact htrim (by omega) h₅

/-- What the choice of a compaction yields is known to the site, and not longer than its blocks. -/
theorem Seen.chosen (hA : Tolerant δ A) (h : Seen A s₀ n v b D)
    (hsub : (ds.map Chunk.unweighed).Subperm (v.chunks.map Chunk.unweighed)) :
    (∀ d ∈ ds, Known ⟨v.engine, b, D⟩ d) ∧ blocksOf ds ≤ v.engine.occupancy.stop := by
  have hperm := hA.chunks (hA.remains h.view)
  have hlens : (ds.map Chunk.unweighed).map (fun d => d.len.toNat) = ds.map fun d => d.len.toNat := by
    rw [List.map_map]
    rfl
  obtain ⟨l, hl, hls⟩ := hsub.trans (hperm.map _).subperm
  obtain ⟨cs, hcs, rfl⟩ := List.sublist_map_iff.1 hls
  have hlens' : (cs.map Chunk.unweighed).map (fun d => d.len.toNat) = cs.map fun d => d.len.toNat := by
    rw [List.map_map]
    rfl
  have hsum : blocksOf ds = blocksOf cs := by
    rw [blocksOf, ← hlens, blocksOf, ← hlens']
    exact (hl.symm.map _).sum_eq
  refine ⟨fun d hd => ?_, ?_⟩
  · obtain ⟨c, hc, hcd⟩ := List.mem_map.1 (hl.symm.subset (List.mem_map_of_mem hd))
    have hid : c.unweighed.id = d.unweighed.id := by rw [hcd]
    have hlen : c.unweighed.len = d.unweighed.len := by rw [hcd]
    exact ⟨c, hcs.subset hc, hid, hlen⟩
  · rw [hsum]
    exact h.sound.lodged.sum_len_le (hcs.subperm.trans (List.sublist_append_left ..).subperm)

theorem compact_endures (hA : Tolerant δ A) (hview : A.View 3 v.records b D)
    (hs : Site.Sound ⟨v.engine, b, D⟩) (hroom : Leeway δ v.engine.appendFrom A.growth) :
    Ends (compact passBytes) v (fun _ w => ∃ n b' D', Under A v ⟨v.engine, b, D⟩ n w b' D')
      (Broken A v ⟨v.engine, b, D⟩) := by
  have hstop : v.engine.occupancy.stop ≤ v.engine.appendFrom := Nat.le_max_right _ _
  have hpercent := hroom.percent
  have hbound : v.engine.occupancy.stop * blockSize < UInt64.size := by
    simp only [mul_blockSize] at *
    omega
  have hseen : Seen A ⟨v.engine, b, D⟩ 3 v b D := ⟨hview, hs, .refl _⟩
  have hchunks : ∀ c ∈ v.chunks, c.after * blockSize < UInt64.size := fun c hc =>
    Nat.lt_of_le_of_lt (Nat.mul_le_mul_right _ (hs.lodged.after_le_stop
      (Inventory.mem_held_of_chunks ((hA.chunks (hA.remains hview)).mem_iff.1 hc)))) hbound
  obtain ⟨chosen, hchoose, hsub, -⟩ := Compaction.choose_spec
    (v.engine.occupancy.used.nextGap 0 * blockSize / blockSize) passBytes hs.lodged.blockSize hchunks
  obtain ⟨hknown, hsum⟩ := hseen.chosen hA hsub
  unfold compact
  rw [ends_bind, ends_get, ends_bind,
    ends_checked (Occupancy.firstGapPos_eq hs.lodged.blockSize hbound), ends_bind]
  refine (ends_checked hchoose).2 ?_
  cases chosen with
  | nil => exact ends_pure.2 ⟨3, b, D, hseen, .start⟩
  | cons c ds =>
    refine (runPass_endures hA hs ⟨hseen, .start⟩ hknown (Nat.le_refl _)
      (Nat.le_trans hsum hstop) hroom).bind ?_ fun _ _ hf => hf
    exact fun _ w hw => ends_pure.2 hw

/-- The chunks `cs` are in order on the device of `w`, and those that were kept in `v` are what they
were, up to their place; the ones that `hidden` names have not been touched. -/
structure Preserved (hidden : UInt32 → Prop) (v : Volume δ κ) (b : ByteArray) (w : Volume δ κ)
    (b' : ByteArray) (cs : List Chunk) : Prop where
  has : w.engine.Has b'
  used : ∀ c ∈ cs, w.engine.occupancy.Filled c.first c.len.toNat
  apart : cs.Pairwise Chunk.Apart
  valid : ∀ c ∈ cs, ∃ p, Seals b' c p
  same : ∀ c ∈ v.chunks, ∀ d ∈ cs, d.id = c.id → d.len = c.len ∧ d.version = c.version ∧
    ∀ p, Seals b c p → Seals b' d p
  untouched : ∀ c ∈ v.chunks, hidden c.id → ∀ d ∈ cs, d.id = c.id → d = c ∧ c.Kept b b'

theorem Preserved.of_sound {cs : List Chunk} {b' : ByteArray} {D' : Inventory} (hA : Tolerant δ A)
    (hview : A.View n v.records b D) (hs : Site.Sound ⟨v.engine, b, D⟩)
    (hs' : Site.Sound ⟨w.engine, b', D'⟩)
    (hdescends : Site.Descends A.hidden ⟨v.engine, b, D⟩ ⟨w.engine, b', D'⟩)
    (hcs : cs.Perm D'.chunks) : Preserved A.hidden v b w b' cs := by
  have hmem {c : Chunk} (hc : c ∈ cs) : c ∈ D'.held :=
    Inventory.mem_held_of_chunks (hcs.mem_iff.1 hc)
  have horigin {c d : Chunk} (hc : c ∈ v.chunks) (hd : d ∈ cs) (hid : d.id = c.id) :
      d = { c with block := d.block, next := d.next } ∧ (∀ p, Seals b c p → Seals b' d p) ∧
        (A.hidden d.id → d = c ∧ c.Kept b b') := by
    have hc : c ∈ D.chunks := (hA.chunks (hA.remains hview)).mem_iff.1 hc
    obtain ⟨a, ha, hda, h⟩ := hdescends.kept d (hcs.mem_iff.1 hd) (hid ▸ hs.past c hc)
    have hida : d.id = a.id := by rw [hda]
    obtain rfl : a = c := List.inj_on_of_nodup_map hs.ids_nodup ha hc (hida.symm.trans hid)
    exact ⟨hda, h⟩
  refine ⟨hs'.has, fun c hc => hs'.lodged.filled c (hmem hc), ?_,
    fun c hc => hs'.sealed c (hcs.mem_iff.1 hc), fun c hc d hd hid => ?_,
    fun c hc hhidden d hd hid => (horigin hc hd hid).2.2 (hid ▸ hhidden)⟩
  · exact (hcs.pairwise_iff Chunk.Apart.symm).2 (List.pairwise_append.1 hs'.lodged.apart).1
  · obtain ⟨hdc, hseals, -⟩ := horigin hc hd hid
    exact ⟨by rw [hdc], by rw [hdc], hseals⟩

/-- However a compaction ends, what the keeper is left with are chunks that it has preserved. Only
after a refusal to take note of a move is one record behind. -/
theorem compact_upholds (hA : Tolerant δ A) (hview : A.View 3 v.records b D)
    (hs : Site.Sound ⟨v.engine, b, D⟩) (hroom : Leeway δ v.engine.appendFrom A.growth) :
    Ends (compact passBytes) v
      (fun _ w => Course A.hidden v (.ok ()) w ∧ ∃ b', Preserved A.hidden v b w b' w.chunks)
      fun f w => Course A.hidden v (.error f) w ∧
        (A.fails f ∧ (∃ b', Preserved A.hidden v b w b' w.chunks) ∨
          A.stale f ∧ ∃ b' moved,
            Preserved A.hidden v b w b' (w.chunks.map (Chunk.follow moved))) := by
  refine (compact_endures hA hview hs hroom).mono ?_ ?_
  · rintro _ w ⟨n, b', D', h⟩
    exact ⟨h.course, b',
      .of_sound hA hview hs h.sound h.descends (hA.chunks (hA.remains h.view))⟩
  · rintro f w ⟨hcourse, ⟨hf, b', D', h⟩ | ⟨hf, b', D', c, start, -, hview', hsound, hdescends⟩⟩
    · exact ⟨hcourse, .inl ⟨hf, b',
        .of_sound hA hview hs h.sound h.descends (hA.chunks h.remains)⟩⟩
    · refine ⟨hcourse, .inr ⟨hf, b', c.movedTo start,
        .of_sound hA hview hs hsound hdescends ?_⟩⟩
      rw [Inventory.chunks_relocate]
      exact (hA.chunks hview').map _

/-- The chunk of a small store. -/
def lone : Chunk := { id := 1, block := 4, len := 1, version := 1 }

/-- A file before its first commit, with that chunk behind two blocks that nothing uses. -/
def holedBytes : ByteArray :=
  Change.apply (Change.apply (zeros (4 * blockSize)) (.write 0 ({} : Superblock).toBytes))
    (.write (lone.first * blockSize) (Frame.framed lone .empty))

/-- Its occupancy. -/
def holedOccupancy : Occupancy := ⟨headerBlocks, blockSize, ⟨#[0x13]⟩, []⟩

/-- The records of its keeper. -/
def holedRecords : Catalog := { data := .ofList [lone], nextId := 2 }

/-- The store on a device with that file. -/
def holed {δ : Type} (device : δ) : Store δ where
  engine := {
    device
    settings := {}
    occupancy := holedOccupancy
    reserved := .nothing
    reuse := true
    pool := ⟨1, []⟩ }
  records := holedRecords

/-- What its keeper has. -/
def holedInventory : Inventory := ⟨[lone], none, [], (· = 1)⟩

theorem fits_lone : Frame.Fits lone .empty := by
  constructor
  · decide
  · decide

theorem size_holedBytes : holedBytes.size = 5 * blockSize := by
  rw [holedBytes, Change.size_apply_write, Frame.size_framed fits_lone, Change.size_apply_write,
    Superblock.size_toBytes, size_zeros]
  decide

theorem holedOccupancy_lodged : Lodged holedOccupancy [lone] := by
  refine ⟨rfl, rfl, fun b hb => ?_, ?_, List.pairwise_singleton _ _, ?_, ?_⟩
  · have hcases : b = 0 ∨ b = 1 := by
      simp only [headerBlocks] at hb
      omega
    rcases hcases with rfl | rfl
    · decide
    · decide
  · refine List.forall_mem_singleton.2 fun b h1 h2 => ?_
    have hlone : lone.first = 4 ∧ lone.len.toNat = 1 := by decide
    obtain rfl : b = 4 := by omega
    decide
  · exact List.forall_mem_singleton.2 (by decide)
  · exact List.forall_mem_singleton.2 (by decide)

theorem holed_sound {d : δ} (h : Fallible.Has d holedBytes) :
    Site.Sound ⟨(holed d).engine, holedBytes, holedInventory⟩ := by
  refine ⟨h, holedOccupancy_lodged, ?_, List.nodup_singleton _, ?_⟩
  · exact List.forall_mem_singleton.2 ⟨_, .of_carries (.of_write _ fits_lone)⟩
  · exact List.forall_mem_singleton.2 rfl

theorem stands_holedBytes : Edition.blank.Stands holedBytes := by
  have hfirst : headerBlocks ≤ lone.first := by decide
  refine ⟨fun _ => rfl, List.forall_mem_nil _, .nil, ?_, ?_, fun root hr => by cases hr⟩
  · rw [Edition.imageBytes, size_ofList, Image.length_toBytes]
    decide
  · exact Superblock.kept_of_write hfirst _ (.of_write {} _)

theorem holed_view : Catalog.Lists (· = 1) 3 holedRecords holedInventory ∧
    Catalog.Stored holedRecords holedBytes holedInventory := by
  have hchunks : holedRecords.data.chunks = [lone] := rfl
  refine ⟨⟨fun id => ?_, ?_, rfl, List.nil_subperm, List.nodup_singleton _, ?_, ?_, ?_, ?_, ?_⟩,
    .blank, stands_holedBytes, rfl, rfl, List.forall_mem_nil _⟩
  · rw [hchunks]
    constructor
    · rintro rfl
      exact ⟨lone, List.mem_cons_self, rfl⟩
    · rintro ⟨c, hc, rfl⟩
      obtain rfl := List.mem_singleton.1 hc
      rfl
  · rw [hchunks]
    exact .refl _
  · rintro id rfl
    decide
  · decide
  · decide
  · decide
  · rw [hchunks]
    exact List.forall_mem_singleton.2 rfl

theorem holed_leeway {d : δ} (h : Fallible.Has d holedBytes)
    (hroom : Fallible.room δ = Bytes.limit) :
    Leeway δ (holed d).engine.appendFrom Chunk.maxBlocks := by
  have hstop : holedOccupancy.stop ≤ 5 := by decide
  have hreach : (holed d).engine.appendFrom ≤ 5 := by
    refine appendFrom_le_iff.2 ⟨?_, hstop⟩
    rw [size_of_has (e := (holed d).engine) h, size_holedBytes]
  have hgrowth : Chunk.maxBlocks = 1048577 := by decide
  have hlimit : Bytes.limit = 2 ^ 63 := by decide
  constructor
  · rw [hroom, hgrowth, hlimit]
    simp only [mul_blockSize]
    omega
  · rw [hgrowth]
    simp only [mul_blockSize, UInt64.size]
    omega

/-- That file in memory. -/
def holedMemory : Memory := { bytes := holedBytes }

theorem holedMemory_has : Fallible.Has holedMemory holedBytes := by
  refine ⟨⟨holedBytes, []⟩, ⟨rfl, rfl, ?_⟩, rfl⟩
  change holedBytes.size < _
  rw [size_holedBytes]
  decide

/-- With a keeper that may hide chunks and change its records while it stores them, and no call that
fails, a compaction succeeds and preserves every chunk. -/
theorem compact_preserves (hA : Tolerant δ A) (hnever : ∀ f, ¬A.fails f ∧ ¬A.stale f)
    (hview : A.View 3 v.records b D) (hs : Site.Sound ⟨v.engine, b, D⟩)
    (hroom : Leeway δ v.engine.appendFrom A.growth) (passBytes : Nat) :
    ∃ moved w, compact passBytes v = (.ok moved, w) ∧ Course A.hidden v (.ok ()) w ∧
      ∃ b', Preserved A.hidden v b w b' w.chunks := by
  have hends : Ends (compact passBytes) v (fun _ w => Course A.hidden v (.ok ()) w ∧
      ∃ b', Preserved A.hidden v b w b' w.chunks) fun _ _ => False := by
    refine (compact_upholds hA hview hs hroom).mono (fun _ _ h => h) fun f _ h => ?_
    rcases h.2 with ⟨hf, -⟩ | ⟨hf, -⟩
    · exact (hnever f).1 hf
    · exact (hnever f).2 hf
  exact hends.total

theorem compact_preserves_holed : ∃ moved w, compact blockSize (holed holedMemory) = (.ok moved, w) ∧
    Course (fun _ => False) (holed holedMemory) (.ok ()) w ∧
    ∃ b', Preserved (fun _ => False) (holed holedMemory) holedBytes w b' w.chunks :=
  compact_preserves (v := holed holedMemory) (D := holedInventory) (Catalog.tolerant Memory (· = 1))
    (fun _ => ⟨id, id⟩) holed_view (holed_sound holedMemory_has) (holed_leeway holedMemory_has rfl) blockSize

/-- If a call fails, the compaction ends with its failure. The chunks are preserved even so, unless the
keeper has refused to take note of a chunk that had moved; then they are once it does so. -/
theorem compact_failure_preserves (hA : Tolerant δ A) (hview : A.View 3 v.records b D)
    (hs : Site.Sound ⟨v.engine, b, D⟩) (hroom : Leeway δ v.engine.appendFrom A.growth)
    {f : Failure} (hrun : compact passBytes v = (.error f, w)) :
    Course A.hidden v (.error f) w ∧
      (A.fails f ∧ (∃ b', Preserved A.hidden v b w b' w.chunks) ∨
        A.stale f ∧ ∃ b' moved, Preserved A.hidden v b w b' (w.chunks.map (Chunk.follow moved))) :=
  (compact_upholds hA hview hs hroom).error f w hrun

/-- That file on a device that refuses its first sync. -/
def holedTraced : Traced Memory Unit where
  inner := holedMemory
  plan kind := if kind = .sync then some 0 else none

theorem choose_holed : ∃ d, Compaction.choose (holed holedTraced).engine.occupancy
    (holed holedTraced).chunks 2 blockSize = .ok [d] := by
  have hlen : (Compaction.choose (holed holedTraced).engine.occupancy (holed holedTraced).chunks 2
      blockSize).toOption.map List.length = some 1 := by decide +kernel
  cases hc : Compaction.choose (holed holedTraced).engine.occupancy (holed holedTraced).chunks 2
      blockSize with
  | error f =>
    rw [hc] at hlen
    cases hlen
  | ok ds =>
    rw [hc] at hlen
    obtain ⟨d, rfl⟩ := List.length_eq_one_iff.1 (Option.some.inj hlen)
    exact ⟨d, rfl⟩

theorem firstGapPos_holed : holedOccupancy.firstGapPos = .ok (2 * blockSize) := by decide +kernel

theorem compact_holedTraced : ∃ w, compact blockSize (holed holedTraced) =
    (.error (.error (.device (.planned .sync))), w) := by
  obtain ⟨d, hd⟩ := choose_holed
  have hsync : Ends (onEngine Engine.sync) (holed holedTraced) (fun _ _ => False)
      fun f _ => f = .error (.device (.planned .sync)) := by
    unfold onEngine Engine.sync Engine.onDevice
    rw [ends_within, ends_within]
    exact ends_iff.2 rfl
  have hends : Ends (compact blockSize) (holed holedTraced) (fun _ _ => False)
      fun f _ => f = .error (.device (.planned .sync)) := by
    unfold compact
    rw [ends_bind, ends_get, ends_bind]
    refine (ends_checked firstGapPos_holed).2 ?_
    rw [Nat.mul_div_cancel _ (by decide), ends_bind]
    refine (ends_checked hd).2 ?_
    unfold runPass
    rw [ends_bind, ends_bind]
    exact hsync.mono (fun _ _ h => h.elim) fun _ _ h => h
  rcases hrun : compact blockSize (holed holedTraced) with ⟨f | a, w⟩
  · obtain rfl := hends.error f w hrun
    exact ⟨w, rfl⟩
  · exact (hends.ok a w hrun).elim

theorem compact_failure_preserves_holed : ∃ f w, compact blockSize (holed holedTraced) = (.error f, w) ∧
    Course (fun _ => False) (holed holedTraced) (.error f) w ∧
    (Fallible.refusal (Traced Memory Unit) f ∧ (∃ b', Preserved (fun _ => False) (holed holedTraced)
        holedBytes w b' w.chunks) ∨
      False ∧ ∃ b' moved, Preserved (fun _ => False) (holed holedTraced) holedBytes w b'
        (w.chunks.map (Chunk.follow moved))) := by
  obtain ⟨w, hrun⟩ := compact_holedTraced
  exact ⟨_, w, hrun, compact_failure_preserves (v := holed holedTraced) (D := holedInventory)
    (Catalog.tolerant (Traced Memory Unit) (· = 1)) holed_view (holed_sound (d := holedTraced) holedMemory_has)
    (holed_leeway (d := holedTraced) holedMemory_has rfl) hrun⟩

end BlockStore.Volume
