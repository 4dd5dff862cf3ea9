import BlockStore.Proofs.FillRate
import BlockStore.Proofs.Lodging
import BlockStore.Proofs.Lowering
import BlockStore.Proofs.Upkeep

namespace BlockStore

open BlockStore.Action Engine

namespace Chunk

variable {c : Chunk} {b : Nat}

/-- The blocks of a chunk. -/
def blocks (c : Chunk) : Finset Nat := Finset.Ico c.first c.after

theorem mem_blocks : b ∈ c.blocks ↔ c.Covers b := Finset.mem_Ico

theorem card_blocks (c : Chunk) : c.blocks.card = c.len.toNat := by
  rw [blocks, Nat.card_Ico, c.after_eq, Nat.add_sub_cancel_left]

end Chunk

namespace Reserved

/-- A store under `r` may put a chunk on these blocks: they end before the reserved ones or begin behind
them. Where those have no end, all blocks are open as long as freed ones are used again. -/
def Opens (r : Reserved) (reuse : Bool) (start n : Nat) : Prop :=
  start + n ≤ r.low ∨ match r.high.filter (0 < ·) with
    | some high => high ≤ start
    | none => reuse = true

theorem opens_between {low high start n : Nat} {reuse : Bool} (hpos : 0 < high) (h : high ≤ start) :
    (between low high).Opens reuse start n := by
  have hfilter : (some high).filter (0 < ·) = some high :=
    Option.filter_eq_some_iff.2 ⟨rfl, decide_eq_true hpos⟩
  refine .inr ?_
  dsimp only [between]
  rw [hfilter]
  exact h

theorem opens_above (low start n : Nat) : (above low).Opens true start n := .inr rfl

end Reserved

namespace Engine

variable {δ : Type} {e e' : Engine δ} {old new : Chunk} {r : Reserved} {low high start n : Nat}

/-- As many blocks are in use as before. -/
theorem Exchanges.usedCount_eq (h : Exchanges e r old new e') (hlen : new.len.toNat = old.len.toNat) :
    e'.occupancy.usedCount = e.occupancy.usedCount := by
  have hnew : Disjoint e.occupancy.blocks new.blocks := Finset.disjoint_left.2 fun b hb hn => by
    obtain ⟨hfirst, hafter⟩ := Chunk.mem_blocks.1 hn
    exact h.room.vacant b hfirst hafter (Occupancy.mem_blocks.1 hb)
  have hold : old.blocks ⊆ e.occupancy.blocks ∪ new.blocks := fun b hb => by
    rw [Finset.mem_union, Occupancy.mem_blocks, Chunk.mem_blocks]
    exact h.filled b (Chunk.mem_blocks.1 hb)
  have hblocks : e'.occupancy.blocks = (e.occupancy.blocks ∪ new.blocks) \ old.blocks := by
    ext b
    simp only [Finset.mem_sdiff, Finset.mem_union, Occupancy.mem_blocks, Chunk.mem_blocks, h.mem_used]
  rw [Occupancy.usedCount_eq, Occupancy.usedCount_eq, hblocks, Finset.card_sdiff_of_subset hold,
    Finset.card_union_of_disjoint hnew, Chunk.card_blocks, Chunk.card_blocks, hlen,
    Nat.add_sub_cancel]

variable [Device δ]

theorem outside_of_heldBack (hr : e.reserved = .between low high)
    (h : e.occupancy.Outside e.heldBack start n) :
    e.occupancy.Outside (.between low high) start n := by
  rcases Nat.eq_zero_or_pos high with rfl | hpos
  · exact .inl (Nat.zero_le _)
  · rwa [heldBack_between hr hpos] at h

theorem outside_heldBack (h : e.reserved.Opens e.reuse start n) :
    e.occupancy.Outside e.heldBack start n := by
  refine h.elim .inr fun h => .inl ?_
  cases hhigh : e.reserved.high.filter (0 < ·) with
  | some high =>
    rw [hhigh] at h
    exact h
  | none =>
    rw [hhigh] at h
    dsimp only
    rw [if_pos h]
    exact Nat.zero_le _

/-- From `e` to `e'` room has been found for `new`, and after that the blocks of `old` have been given
back. Whatever else has been done, the blocks in use and those held back are the same. -/
def Swaps (e : Engine δ) (old new : Chunk) (e' : Engine δ) : Prop :=
  ∃ (c : Chunk) (buf framed : ByteArray) (e₁ e₂ e₃ e₄ : Engine δ), e₁.plan = e.plan ∧
    e₁.reuse = e.reuse ∧ allocateFor c buf e₁ = (.ok (new, framed), e₂) ∧ e₃.plan = e₂.plan ∧
    freeChunk old e₃ = (.ok (), e₄) ∧ e'.plan = e₄.plan

/-- The new chunk keeps off the reserved blocks, and goes to the first of the others that it fits. -/
theorem Swaps.exchanges (h : e.Swaps old new e') (hb : e.occupancy.blockSize = blockSize) :
    0 < new.len.toNat ∧ (∃ held, Exchanges e held old new e') ∧
      (∀ low high, e.reserved = .between low high →
        e.occupancy.Outside (.between low high) new.first new.len.toNat) ∧
      ∀ b, e.occupancy.Vacant b new.len.toNat → e.reserved.Opens e.reuse b new.len.toNat →
        new.first ≤ b := by
  obtain ⟨c, buf, framed, e₁, e₂, e₃, e₄, h₁, hreuse, htake, h₃, hfree, h₄⟩ := h
  obtain ⟨hocc, hres⟩ := Prod.mk.inj h₁
  obtain ⟨⟨⟨block, next, rfl⟩, hlen, -, -, hroom⟩, wasteful, rfl⟩ :=
    (allocateFor_taking (hocc ▸ hb)).ok _ _ htake
  have hhouses : Houses e₁ e₁.heldBack { c with block, next } e₃ := ⟨hroom, wasteful, h₃⟩
  have hhouses := hhouses.of_plan h₁ rfl
  obtain ⟨hfilled, hplan⟩ := (freeChunk_vacates (hhouses.blockSize_eq.trans hb)).ok _ _ hfree
  refine ⟨hlen, ⟨_, .of_houses hhouses hfilled (h₄.trans hplan)⟩, fun low high hr => ?_,
    fun b hv hopen => ?_⟩
  · exact hocc ▸ outside_of_heldBack (hres.trans hr) hroom.outside
  · exact Occupancy.preview_le hlen hroom.preview (hocc ▸ hv)
      (outside_heldBack (hres ▸ hreuse ▸ hopen))

end Engine

variable {δ κ : Type} [Device δ] [Keeper δ κ]

/-- The keeper answers from its records, and knows each chunk by its id. To take note of a move it gets
or gives back no blocks. To store the records it puts a new root of `len` blocks in the place of the
one before, and nothing else changes. -/
structure Keeper.Reroots (δ κ : Type) [Device δ] [Keeper δ κ] (Sound : κ → Prop) (len : Nat) :
    Prop where
  lookup {v w : Volume δ κ} : v.records = w.records → v.chunk? = w.chunk?
  root_eq {v w : Volume δ κ} : v.records = w.records → v.root? = w.root?
  id_eq {v : Volume δ κ} {id : UInt32} {c : Chunk} : v.chunk? id = some c → c.id = id
  mem_chunks {v : Volume δ κ} {c : Chunk} : Sound v.records →
    (c ∈ v.chunks ↔ v.chunk? c.id = some c)
  nodup {v : Volume δ κ} : Sound v.records → (v.chunks.map Chunk.id).Nodup
  root {v : Volume δ κ} : Sound v.records → ∃ root, v.root? = some root ∧
    v.chunk? root.id = some root ∧ root.len.toNat = len
  register {v : Volume δ κ} {c d : Chunk} : Sound v.records → v.chunk? c.id = some d →
    c.len = d.len → Ends (Volume.register c) v (fun _ w => Sound w.records ∧
      w.engine.plan = v.engine.plan ∧ w.engine.reuse = v.engine.reuse ∧ w.chunk? c.id = some c ∧
      (∀ id, id ≠ c.id → w.chunk? id = v.chunk? id) ∧
      w.root? = v.root?.map fun root => if root.id = c.id then c else root) Any
  store {v : Volume δ κ} : Sound v.records → v.engine.occupancy.blockSize = blockSize →
    Ends (Volume.store : Action (Volume δ κ) Unit) v (fun _ w => Sound w.records ∧
      w.engine.reuse = v.engine.reuse ∧ ∃ old root, v.root? = some old ∧ w.root? = some root ∧
        v.engine.Swaps old root w.engine ∧ v.chunk? root.id = none ∧ w.chunk? old.id = none ∧
        ∀ id, id ≠ old.id → id ≠ root.id → w.chunk? id = v.chunk? id) Any

theorem Keeper.Reroots.of_root {Sound : κ → Prop} {len : Nat} {v : Volume δ κ} {root : Chunk}
    (hk : Keeper.Reroots δ κ Sound len) (hs : Sound v.records) (hroot : v.root? = some root) :
    v.chunk? root.id = some root ∧ root.len.toNat = len := by
  obtain ⟨_, hsome, h⟩ := hk.root hs
  obtain rfl := Option.some.inj (hroot.symm.trans hsome)
  exact h

namespace Volume

variable {Sound : κ → Prop} {len : Nat} {v w : Volume δ κ} {c d old new root moved : Chunk}
  {id i j : UInt32} {r : Reserved} {reuse : Bool}

/-- The records are sound, and each chunk keeps to blocks of its own. -/
structure Tidy (Sound : κ → Prop) (reuse : Bool) (v : Volume δ κ) : Prop where
  sound : Sound v.records
  reuse : v.engine.reuse = reuse
  blockSize : v.engine.occupancy.blockSize = BlockStore.blockSize
  filled : ∀ {id c}, v.chunk? id = some c → v.engine.occupancy.Filled c.first c.len.toNat
  apart : ∀ {i j c d}, v.chunk? i = some c → v.chunk? j = some d → i ≠ j →
    ∀ b, c.Covers b → ¬d.Covers b

namespace Tidy

theorem of_lodged (hk : Keeper.Reroots δ κ Sound len) (hs : Sound v.records)
    (h : Lodged v.engine.occupancy v.chunks) : Tidy Sound v.engine.reuse v := by
  have hmem {id : UInt32} {c : Chunk} (hc : v.chunk? id = some c) : c ∈ v.chunks :=
    (hk.mem_chunks hs).2 ((hk.id_eq hc).symm ▸ hc)
  refine ⟨hs, rfl, h.blockSize, fun hc => h.filled _ (hmem hc), fun {i j c d} hc hd hne b hb => ?_⟩
  have hcd : c ≠ d := fun heq => hne ((hk.id_eq hc).symm.trans (heq ▸ hk.id_eq hd))
  exact (h.apart_of_ne (hmem hc) (hmem hd) hcd).not_covers hb

theorem of_same (hk : Keeper.Reroots δ κ Sound len) (h : Tidy Sound reuse v)
    (hr : w.records = v.records) (ho : w.engine.occupancy = v.engine.occupancy)
    (hu : w.engine.reuse = v.engine.reuse) : Tidy Sound reuse w := by
  have hsame : w.chunk? = v.chunk? := hk.lookup hr
  refine ⟨hr ▸ h.sound, hu.trans h.reuse, ho ▸ h.blockSize, fun hc => ?_, fun hc hd hne => ?_⟩
  · rw [hsame] at hc
    exact ho ▸ h.filled hc
  · rw [hsame] at hc hd
    exact h.apart hc hd hne

omit [Device δ] in
/-- A chunk that takes the place of another has been given blocks that were free. -/
theorem exchange (h : Tidy Sound reuse v) (hs : Sound w.records)
    (hu : w.engine.reuse = v.engine.reuse) (he : Exchanges v.engine r old new w.engine)
    (hold : v.chunk? old.id = some old) (hnew : w.chunk? new.id = some new)
    (hgone : old.id ≠ new.id → w.chunk? old.id = none)
    (hothers : ∀ id, id ≠ old.id → id ≠ new.id → w.chunk? id = v.chunk? id) :
    Tidy Sound reuse w := by
  have hcases {id : UInt32} {c : Chunk} (hc : w.chunk? id = some c) :
      id = new.id ∧ c = new ∨ id ≠ old.id ∧ v.chunk? id = some c := by
    by_cases hid : id = new.id
    · exact .inl ⟨hid, Option.some.inj (hc.symm.trans (hid ▸ hnew))⟩
    · have hne : id ≠ old.id := by
        rintro rfl
        exact nomatch hc.symm.trans (hgone hid)
      exact .inr ⟨hne, (hothers id hne hid).symm.trans hc⟩
  have hfresh {id : UInt32} {c : Chunk} {b : Nat} (hc : v.chunk? id = some c) (hb : c.Covers b) :
      ¬new.Covers b := fun hn => he.room.vacant b hn.1 hn.2 (h.filled hc b hb.1 hb.2)
  refine ⟨hs, hu.trans h.reuse, he.blockSize.trans h.blockSize, fun hc b h1 h2 => ?_,
    fun hc hd hne b hb hb' => ?_⟩
  · rw [he.mem_used]
    rcases hcases hc with ⟨-, rfl⟩ | ⟨hne, hc⟩
    · exact ⟨.inr ⟨h1, h2⟩, fun hb => hfresh hold hb ⟨h1, h2⟩⟩
    · exact ⟨.inl (h.filled hc b h1 h2), h.apart hc hold hne b ⟨h1, h2⟩⟩
  · rcases hcases hc, hcases hd with ⟨⟨rfl, rfl⟩ | ⟨-, hc⟩, ⟨rfl, rfl⟩ | ⟨-, hd⟩⟩
    · exact hne rfl
    · exact hfresh hd hb' hb
    · exact hfresh hc hb hb'
    · exact h.apart hc hd hne b hb hb'

end Tidy

/-- What a move that succeeds has done. -/
structure Shifted (Sound : κ → Prop) (reuse : Bool) (v : Volume δ κ) (r : Reserved) (c moved : Chunk)
    (w : Volume δ κ) : Prop extends Rehouses v.engine r c moved w.engine where
  tidy : Tidy Sound reuse w
  found : w.chunk? c.id = some moved
  others : ∀ id, id ≠ c.id → w.chunk? id = v.chunk? id
  root?_eq : w.root? = v.root?.map fun root => if root.id = c.id then moved else root

theorem move_shifted (hk : Keeper.Reroots δ κ Sound len) (h : Tidy Sound reuse v) :
    Ends (move id r) v (fun out w => (v.chunk? id = none ∧ out = none ∧ w = v) ∨
      ∃ c moved, v.chunk? id = some c ∧ out = some moved ∧ Shifted Sound reuse v r c moved w) Any := by
  unfold move
  rw [ends_bind, ends_get]
  cases hfind : v.chunk? id with
  | none => exact ends_pure.2 (.inl ⟨rfl, rfl, rfl⟩)
  | some c =>
    obtain rfl := hk.id_eq hfind
    dsimp only
    rw [ends_bind, onEngine, ends_within]
    have hterms := fixes_iff.1 (.bind (aloof_terms.copy c r) fun moved =>
      .bind (aloof_terms.freeChunk c) fun _ => fixes_pure moved) v.engine
    refine ((relocate_rehouses h.blockSize).and hterms).mono ?_ fun _ _ _ => trivial
    rintro moved e ⟨hre, hterms⟩
    have hsame : (⟨e, v.records⟩ : Volume δ κ).chunk? = v.chunk? := hk.lookup rfl
    have hroot : (⟨e, v.records⟩ : Volume δ κ).root? = v.root? := hk.root_eq rfl
    have hfind' : (⟨e, v.records⟩ : Volume δ κ).chunk? moved.id = some c := by
      rw [hsame, hre.id_eq]
      exact hfind
    refine (hk.register (v := ⟨e, v.records⟩) h.sound hfind' hre.len_eq).bind ?_ fun _ _ hf => hf
    rintro _ w ⟨hs, hplan, hu, hfound, hothers, hroot'⟩
    rw [hre.id_eq] at hfound hothers hroot'
    rw [hsame] at hothers
    rw [hroot] at hroot'
    have hre := hre.of_plan hplan
    refine ends_pure.2 (.inr ⟨c, moved, rfl, rfl, hre, ?_, hfound, hothers, hroot'⟩)
    have hu := hu.trans (Prod.mk.inj hterms).1
    exact h.exchange hs hu hre.toExchanges hfind (hre.id_eq.symm ▸ hfound)
      (fun hne => absurd hre.id_eq.symm hne) fun id hne _ => hothers id hne

/-- What a store that succeeds has done while `r` was reserved: `root` is in the place of `old`. -/
structure Rerooted (Sound : κ → Prop) (reuse : Bool) (v : Volume δ κ) (r : Reserved) (old root : Chunk)
    (w : Volume δ κ) : Prop where
  tidy : Tidy Sound reuse w
  exchanges : ∃ held, Exchanges v.engine held old root w.engine
  outside : ∀ low high, r = .between low high →
    v.engine.occupancy.Outside r root.first root.len.toNat
  first_le : ∀ b, v.engine.occupancy.Vacant b root.len.toNat →
    r.Opens reuse b root.len.toNat → root.first ≤ b
  old?_eq : v.root? = some old
  root?_eq : w.root? = some root
  known : v.chunk? old.id = some old
  fresh : v.chunk? root.id = none
  found : w.chunk? root.id = some root
  lost : w.chunk? old.id = none
  others : ∀ id, id ≠ old.id → id ≠ root.id → w.chunk? id = v.chunk? id

omit [Device δ] in
/-- A chunk that is not the old root is none of the two roots. -/
theorem Rerooted.stays (h : Rerooted Sound reuse v r old root w) (hc : v.chunk? id = some c)
    (hne : id ≠ old.id) : id ≠ root.id ∧ w.chunk? id = v.chunk? id := by
  have hroot : id ≠ root.id := by
    rintro rfl
    exact nomatch hc.symm.trans h.fresh
  exact ⟨hroot, h.others id hne hroot⟩

theorem Rerooted.of_same {v' w' : Volume δ κ} (hk : Keeper.Reroots δ κ Sound len)
    (h : Rerooted Sound reuse v r old root w) (hv : v'.records = v.records)
    (hvo : v'.engine.occupancy = v.engine.occupancy) (hw : w'.records = w.records)
    (hwo : w'.engine.occupancy = w.engine.occupancy) (hwu : w'.engine.reuse = w.engine.reuse) :
    Rerooted Sound reuse v' r old root w' := by
  obtain ⟨held, hroom, hfilled, hused, hblock⟩ := h.exchanges
  have hfindv : v'.chunk? = v.chunk? := hk.lookup hv
  have hfindw : w'.chunk? = w.chunk? := hk.lookup hw
  exact {
    tidy := h.tidy.of_same hk hw hwo hwu
    exchanges := ⟨held, ⟨hroom.lt, hvo ▸ hroom.preview, hvo ▸ hroom.vacant, hvo ▸ hroom.outside⟩,
      hvo ▸ hfilled, hvo ▸ hwo ▸ hused, hvo ▸ hwo ▸ hblock⟩
    outside := hvo ▸ h.outside
    first_le := hvo ▸ h.first_le
    old?_eq := (hk.root_eq hv).trans h.old?_eq
    root?_eq := (hk.root_eq hw).trans h.root?_eq
    known := hfindv ▸ h.known
    fresh := hfindv ▸ h.fresh
    found := hfindw ▸ h.found
    lost := hfindw ▸ h.lost
    others := hfindv ▸ hfindw ▸ h.others }

theorem store_rerooted (hk : Keeper.Reroots δ κ Sound len) (h : Tidy Sound reuse v) :
    Ends store v (fun _ w => ∃ old root, Rerooted Sound reuse v v.engine.reserved old root w) Any := by
  refine (hk.store h.sound h.blockSize).mono ?_ fun _ _ hf => hf
  rintro _ w ⟨hs, hu, old, root, hold, hroot, hswaps, hfresh, hlost, hothers⟩
  obtain ⟨-, ⟨held, he⟩, houtside, hle⟩ := hswaps.exchanges h.blockSize
  have hknown := (hk.of_root h.sound hold).1
  have hfound := (hk.of_root hs hroot).1
  exact ⟨old, root, h.exchange hs hu he hknown hfound (fun _ => hlost) hothers, ⟨held, he⟩,
    fun low high hr => hr ▸ houtside low high hr, h.reuse ▸ hle, hold, hroot, hknown, hfresh, hfound,
    hlost, hothers⟩

theorem storeReserving_rerooted (hk : Keeper.Reroots δ κ Sound len) (h : Tidy Sound reuse v) :
    Ends (storeReserving r) v (fun _ w => ∃ old root, Rerooted Sound reuse v r old root w) Any := by
  unfold storeReserving
  rw [ends_bind, ends_modify]
  have hv : Tidy Sound reuse (⟨v.engine.reserving r, v.records⟩ : Volume δ κ) :=
    h.of_same hk rfl rfl rfl
  refine Ends.attempted (store_rerooted hk hv) ?_ fun _ _ => ends_refusing
  rintro _ u ⟨old, root, hu⟩
  rw [ends_bind, ends_modify]
  exact ends_pure.2 ⟨old, root, hu.of_same hk rfl rfl rfl rfl rfl⟩

end Volume

namespace Catalog

/-- The catalog is orderly and nothing is to be given back but the root, which is as long as those that
will follow it while the number of payloads stays the same. -/
structure Rooted (len : Nat) (k : Catalog) : Prop extends k.Orderly where
  removed : k.removed = []
  root : ∃ root, k.root = some root ∧ root.len.toNat = len
  next : Chunk.blocksFor k.nextBytes.size = len

variable {δ : Type} [Device δ] {len : Nat} {v : Store δ} {c d : Chunk} {k k' : Catalog}

theorem size_nextBytes (k : Catalog) :
    k.nextBytes.size = Image.headSize + Image.entrySize * k.data.size := by
  rw [nextBytes, Bytes.size_ofList, Image.length_toBytes]
  rfl

theorem commit_swaps {root : Chunk} (hroot : v.records.root = some root)
    (hremoved : v.records.removed = []) : Ends Store.commit v (fun _ w => w.records.removed = [] ∧
      ∃ new, w.records.root = some new ∧ new.MadeFor v.records.nextId v.records.nextBytes ∧
        v.engine.Swaps root new w.engine) Any := by
  refine Store.commit_of_root (fun _ => trivial) (fun _ => trivial) (fun _ _ => trivial)
    fun _ hlt _ => ?_
  refine (place_takes.and place_makes).bind ?_ fun _ _ _ => trivial
  rintro new e₁ ⟨⟨l, framed, pool, given, e₀, hrun, h₁⟩, hmade⟩
  unfold Store.publishRoot
  refine (fixes_iff.1 sync_plan e₁).bind (fun _ e₂ h₂ => ?_) fun _ _ _ => trivial
  refine (fixes_iff.1 (write_plan _ _) e₂).bind (fun _ e₃ h₃ => ?_) fun _ _ _ => trivial
  refine (fixes_iff.1 sync_plan e₃).bind (fun _ e₄ h₄ => ends_pure.2 ?_) fun _ _ _ => trivial
  unfold Store.adoptRoot
  rw [ends_bind, ends_modify, ends_bind, Volume.onEngine, ends_within, hremoved, hroot]
  dsimp only [Option.toList_some, List.nil_append]
  refine ends_run.bind (fun _ e₅ hfree => ends_pure.2 (ends_pure.2 ?_)) fun _ _ hf => hf
  exact ⟨rfl, new, rfl, hmade, _, framed, given, { v.engine with pool }, _, _, _, rfl, rfl, hrun,
    h₄.trans (h₃.trans (h₂.trans h₁)), hfree, rfl⟩

theorem Rooted.of_notes (h : k.Rooted len) (horderly : k'.Orderly) (hn : k.Notes c k')
    (hd : k.find? c.id = some d) (hlen : c.len = d.len) : k'.Rooted len := by
  obtain ⟨root, hroot, hrlen⟩ := h.root
  refine ⟨horderly, hn.removed.trans h.removed, ⟨_, by rw [hn.root, hroot, Option.map_some], ?_⟩, ?_⟩
  · split
    · next hid =>
      have hsome : k.find? root.id = some root :=
        (find?_eq_some_iff h.nodup).2 ⟨mem_chunks.2 (.inr hroot), rfl⟩
      obtain rfl := Option.some.inj ((hid ▸ hsome).symm.trans hd)
      rw [hlen, hrlen]
    · exact hrlen
  · have hsize : k'.data.size = k.data.size := by
      rw [hn.data]
      split
      · next hs =>
        obtain ⟨e, he⟩ := Option.isSome_iff_exists.1 hs
        obtain ⟨hmem, hid⟩ := Roster.find?_eq_some.1 he
        exact Roster.size_insert hmem hid.symm
      · rfl
    rw [size_nextBytes, hsize, ← size_nextBytes, h.next]

/-- A store whose payloads stay in number is one that puts a new root in the place of the one before. -/
theorem reroots (len : Nat) : Keeper.Reroots δ Catalog (Rooted len) len where
  lookup h := congrArg find? h
  root_eq h := congrArg Catalog.root h
  id_eq h := id_of_find? h
  mem_chunks h := ⟨fun hc => (find?_eq_some_iff h.nodup).2 ⟨hc, rfl⟩,
    fun hc => ((find?_eq_some_iff h.nodup).1 hc).1⟩
  nodup h := h.nodup
  root h := by
    obtain ⟨root, hroot, hlen⟩ := h.root
    exact ⟨root, hroot, (find?_eq_some_iff h.nodup).2 ⟨mem_chunks.2 (.inr hroot), rfl⟩, hlen⟩
  register {v c d} h hd hlen := by
    have hd : v.records.find? c.id = some d := hd
    have hpos : (v.records.data.find? c.id).isSome → 0 < c.len.toNat := fun hs =>
      hlen ▸ h.toOrderly.len_pos_of_find? (data_find?_of_find? hd hs)
    refine ((Store.register_orderly h.toOrderly hpos).and
      (fixes_iff.1 (Store.register_fixes (aloof_terms (δ := δ)) c) v)).mono ?_ fun _ _ _ => trivial
    rintro _ w ⟨⟨horderly, hplan, hnotes⟩, hterms⟩
    exact ⟨h.of_notes horderly hnotes hd hlen, hplan, (Prod.mk.inj hterms).1, hnotes.find?_self hd,
      hnotes.others, hnotes.root⟩
  store {v} h hb := by
    change Ends (discard Store.commit) v _ _
    rw [ends_discard]
    obtain ⟨old, hold, -⟩ := h.root
    refine (((Store.commit_renews ⟨h.toOrderly, hb⟩).and (commit_swaps hold h.removed)).and
      (fixes_iff.1 (Store.commit_fixes (aloof_terms (δ := δ))) v)).mono ?_ fun _ _ _ => trivial
    rintro _ w ⟨⟨hr, hremoved, root, hroot, hmade, hswaps⟩, hterms⟩
    have hnew : v.records.find? root.id = none := by
      refine Option.eq_none_iff_forall_ne_some.2 fun c hc => ?_
      have hmem := ((find?_eq_some_iff h.nodup).1 hc).1
      exact UInt32.ne_of_lt (h.lt c.id (List.mem_map_of_mem hmem)) ((id_of_find? hc).trans hmade.id_eq)
    have hne : root.id ≠ old.id := fun heq => by
      rw [heq, (find?_eq_some_iff h.nodup).2 ⟨mem_chunks.2 (.inr hold), rfl⟩] at hnew
      cases hnew
    have hdata (id : UInt32) (hid : id ≠ root.id) : w.records.find? id = v.records.data.find? id := by
      rw [find?, hr.data, hroot, Option.filter_some, if_neg, Option.or_none]
      exact fun heq => hid (of_decide_eq_true heq).symm
    refine ⟨⟨hr.inOrder.records, hremoved, ⟨root, hroot, ?_⟩, ?_⟩, (Prod.mk.inj hterms).1, old, root,
      hold, hroot, hswaps, hnew, ?_, fun id hid hid' => ?_⟩
    · rw [hmade.len_eq, h.next]
    · rw [size_nextBytes, hr.data, ← size_nextBytes, h.next]
    · exact (hdata old.id hne.symm).trans (h.root_absent hold)
    · refine (hdata id hid').trans ?_
      change _ = v.records.find? id
      rw [find?, hold, Option.filter_some, if_neg, Option.or_none]
      exact fun heq => hid (of_decide_eq_true heq).symm

end Catalog

end BlockStore
