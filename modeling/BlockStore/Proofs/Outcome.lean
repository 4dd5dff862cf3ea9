import BlockStore.Proofs.Compaction
import BlockStore.Proofs.Success

namespace BlockStore

open Bytes

namespace Engine

open BlockStore.Action Device

variable {δ : Type} [Device δ] [Faithful δ] {e : Engine δ} {m : Medium}

theorem shrink_done (percent : Nat) (h : e.Shows m) (hb : e.occupancy.blockSize = blockSize) :
    Ends (shrink percent) e (fun _ e' => Keeps e m e' ∨
      Keeps e (m.sync.change (.cut (e.occupancy.stop * blockSize))) e') Any := by
  have hquiet : Keeps e m e := ⟨h, rfl, rfl⟩
  unfold shrink
  rw [ends_bind, ends_get, readOnly_eq h, if_neg Bool.false_ne_true, ends_bind]
  refine ends_of_checked fun stop hstop => ?_
  rw [Occupancy.stopPos, Occupancy.posOf, hb] at hstop
  obtain ⟨-, rfl⟩ := word64_eq_ok.1 hstop
  split
  · exact ends_pure.2 (.inl hquiet)
  next hsaves =>
  split
  · exact ends_pure.2 (.inl hquiet)
  rw [ends_bind]
  refine ends_of_checked fun scaled _ => ?_
  split
  · exact ends_pure.2 (.inl hquiet)
  refine (sync_ends h).bind (fun _ e₁ k₁ => ?_) fun _ _ _ => trivial
  rw [ends_bind, onDevice, ends_within]
  rw [size_eq h] at hsaves
  refine (Lawful.truncate_ends k₁.1 (Nat.le_of_not_le hsaves)).mono (fun _ d k₂ => ?_) fun _ _ _ => trivial
  exact ends_pure.2 (.inr ⟨k₂, k₁.2⟩)

end Engine

namespace Store

open BlockStore.Action Engine Device

variable {δ : Type} [Device δ] [Faithful δ] {v v' : Store δ} {m : Medium} {E : Edition}
  {live committed : Contents} {shield : Nat → Prop} {c moved : Chunk} {p : ByteArray}
  {r : Reserved} {id : UInt32} {boundary low high top : Nat}

/-- What a new payload has done to the store. -/
structure Written (v : Store δ) (p : ByteArray) (c : Chunk) (v' : Store δ) : Prop where
  id_eq : c.id = v.records.nextId
  fresh : v.engine.Fresh v.engine.heldBack c p
  mode : v'.engine.mode = v.engine.mode
  records : v'.records = { v.records with
    nextId := v.records.nextId + 1
    data := v.records.data.insert c
    dirty := true }

theorem write_done (h : Consistent v m E live committed bare) :
    Ends (write p) v (fun c v' => Written v p c v' ∧ Consistent v'
      (m.change (.write (c.first * blockSize) (Frame.framed c p))) E (live.put c.id p) committed
        bare) Any := by
  refine write_of_place (fun _ => trivial) (fun _ => trivial) (fun _ _ => trivial) fun _ hid _ => ?_
  refine (place_done h.shows h.layout.blockSize).mono ?_ fun _ _ hf => hf
  rintro c e' ⟨hp, ⟨block, next, rfl⟩, hfresh, hputs⟩
  have hg := h.grow hfresh (fun _ hb => hb.elim) hputs
  exact ⟨⟨rfl, hfresh, hg.mode, rfl⟩, h.insert hg rfl hid rfl⟩

/-- The file once a commit with this root is durable on it. -/
def committedOn (v : Store δ) (root : Chunk) (m : Medium) : Medium :=
  (v.records.nextEdition root).publishedOn
    (m.change (.write (root.first * blockSize) (Frame.framed root v.records.nextBytes)))

theorem commit_done (h : Consistent v m E live committed shield)
    (hclosed : ∀ b, shield b → v.engine.heldBack.Closed b) :
    Ends commit v (fun _ v' => Committed v v' ∧ ∃ root, v'.records.root = some root ∧
      v.engine.Fresh v.engine.heldBack root v.records.nextBytes ∧
      Consistent v' (v.committedOn root m) (v.records.nextEdition root) live live bare) Any := by
  refine commit_of_root (fun _ => trivial) (fun _ => trivial) (fun _ _ => trivial)
    fun _ hid hlt => ?_
  refine (place_done h.shows h.layout.blockSize).bind ?_ fun _ _ hf => hf
  rintro root e₁ ⟨hbytes, hroot, hfresh, hputs⟩
  have hg := h.grow hfresh (fun b hb hcb => hfresh.outside.not_closed (hclosed b hb) hcb) hputs
  refine (publishRoot_ends h hid hlt hg hroot (nextRoot_len_le hbytes hroot)).mono
    (fun _ e₂ h₂ => ?_) fun _ _ _ => trivial
  exact h₂.mono (fun _ v' hv' => ⟨hv'.1, root, hv'.2.1, hfresh, hv'.2.2.2⟩) fun _ _ _ => trivial

/-- A move that succeeds keeps off the shielded blocks. -/
def Clear (v : Store δ) (shield : Nat → Prop) (c : Chunk) (r : Reserved) : Prop :=
  ∀ start, v.engine.occupancy.preview c.len.toNat r = .ok start →
    v.engine.occupancy.Outside r start c.len.toNat → ∀ b, shield b → ¬(start ≤ b ∧ b < start + c.len.toNat)

theorem move_done (h : Consistent v m E live committed shield)
    (hfind : v.records.find? id = some c) (hclear : v.Clear shield c r)
    (hshield : c ∈ v.records.data.chunks → ∀ b, c.Covers b → shield b) :
    Ends (Volume.move id r) v (fun out v' => ∃ moved, out = some moved ∧
      Destination v r c moved ∧ Moved v v' c moved ∧
      ∃ m' E', Consistent v' m' E' live committed shield) Any := by
  obtain ⟨hmem, -⟩ := (Catalog.find?_eq_some h.ids_nodup).1 hfind
  have hheld : c ∈ v.records.held := v.records.chunks_subperm.subset hmem
  have hchunk : v.chunk? id = some c := hfind
  unfold Volume.move
  rw [ends_bind, ends_get, hchunk]
  dsimp only
  rw [ends_bind, Volume.onEngine, ends_within]
  obtain ⟨p, hp, hregister⟩ := register_ends h hmem hshield
  refine (copy_done h.shows h.layout.blockSize hp.holds hp.fits (h.layout.len_pos c hheld)).bind ?_
    fun _ _ hf => hf
  rintro _ e₁ ⟨start, rfl, hfirst, hpreview, hfresh, hputs⟩
  have hg := h.grow hfresh (fun b hb hcb => hclear start hpreview (hfirst ▸ hfresh.outside) b hb (by
    rw [← hfirst]
    exact hcb)) hputs
  refine (retire_ends hheld hg).mono ?_ fun _ _ => False.elim
  rintro _ e₂ ⟨rfl, hr⟩
  refine (hregister hr).bind ?_ fun _ _ _ => trivial
  rintro _ v' ⟨hmoved, hv'⟩
  refine ends_pure.2 ⟨_, rfl, ⟨by rw [hfirst], by rwa [hfirst], p, hfresh⟩, hmoved, hv'⟩

/-- The file may be cut, and is made durable. -/
theorem trim_done (percent : Nat) (h : Consistent v m E live committed bare) :
    Ends (Volume.onEngine do discard (shrink percent); Engine.sync) v (fun _ v' =>
      v'.records = v.records ∧ v'.engine.mode = v.engine.mode ∧
      ∃ m', Consistent v' m' E live committed bare) Any := by
  rw [Volume.onEngine, ends_within, ends_bind, ends_discard]
  refine (shrink_done percent h.shows h.layout.blockSize).mono ?_ fun _ _ hf => hf
  intro _ e₁ hk
  obtain ⟨m₁, -, hm, h₁⟩ := h.shrunk hk
  refine (Engine.sync_ends h₁.shows).mono ?_ fun _ _ _ => trivial
  exact fun _ e₂ k₂ => ⟨rfl, k₂.2.2.trans hm, _, h₁.sync k₂⟩

theorem storeReserving_done (h : Consistent v m E live committed shield)
    (hreuse : v.engine.reuse = true) (hnothing : v.engine.reserved = .nothing)
    (hshield : ∀ b, shield b → r.low ≤ b ∧ b < r.high.getD 0) :
    Ends (Volume.storeReserving r) v (fun _ v' => Committed v v' ∧
      ∃ m' E', Consistent v' m' E' live live bare) Any := by
  unfold Volume.storeReserving
  rw [ends_bind, ends_modify]
  have hcommit := commit_done (h.reserving r) fun b hb => by
    rw [heldBack_reserving hreuse]
    exact ⟨(hshield b hb).1, _, rfl, (hshield b hb).2⟩
  refine Ends.attempted hcommit.discard ?_ fun _ _ => ends_refusing
  rintro _ v₁ ⟨hc, root, -, -, h₁⟩
  rw [ends_bind, ends_modify]
  exact ends_pure.2 ⟨hc.reserving hnothing, _, _, h₁.reserving .nothing⟩

theorem moveBelow_done (h : Consistent v m E live committed shield) (hc : v.records.root = some c)
    (hshield : ∀ b, shield b → boundary ≤ b) :
    Ends (Volume.moveBelow c.id boundary) v (fun _ v' => Alike v v' ∧
      ∃ m' E', Consistent v' m' E' live committed shield) Any := by
  have hmem : c ∈ v.records.chunks := Catalog.mem_chunks.2 (.inr hc)
  have hheld := v.records.chunks_subperm.subset hmem
  have hfind : v.chunk? c.id = some c := (Catalog.find?_eq_some h.ids_nodup).2 ⟨hmem, rfl⟩
  have hafter := h.layout.after_le_stop hheld
  have hlen := h.layout.len_pos c hheld
  have hstays : Alike v v ∧ ∃ m' E', Consistent v m' E' live committed shield := ⟨.refl v, _, _, h⟩
  unfold Volume.moveBelow
  rw [ends_bind, ends_get, hfind]
  dsimp only
  split
  · exact ends_pure.2 hstays
  next hfirst =>
  have hfirst : boundary ≤ c.first := Nat.le_of_not_lt hfirst
  rw [ends_bind, ends_get, ends_bind]
  refine ends_of_checked fun target hpreview => ?_
  split
  · exact ends_pure.2 hstays
  next htarget =>
  have hclear : v.Clear shield c (.above boundary) := by
    intro start hs hout b hb hin
    obtain rfl := Except.ok.inj (hs.symm.trans hpreview)
    have := hshield b hb
    rw [Chunk.after_eq] at hafter
    simp only [Occupancy.Outside, Reserved.above] at hout
    omega
  refine (move_done h hfind hclear fun hdata => absurd rfl (h.root_unlike hc c hdata)).bind ?_
    fun _ _ hf => hf
  rintro _ v₁ ⟨moved, rfl, -, hmoved, hv₁⟩
  dsimp only
  rw [ends_bind]
  refine ends_of_checked fun stop _ => ?_
  split
  · exact ends_bind.2 (ends_throw.2 trivial)
  · exact ends_pure.2 ⟨hmoved.toAlike, hv₁⟩

theorem Sweep.move_done {rest : List Chunk} {any : Bool} {d : Chunk}
    (h : Sweep v live committed low high top (d :: rest) any v') :
    Ends (Volume.move d.id (.between low high)) v' (fun out v'' => Swept v' v'' d out ∧
      Sweep v live committed low high top rest (any || out.isSome) v'') Any := by
  obtain ⟨m, E, hcons⟩ := h.consistent
  cases hfind : v'.records.find? d.id with
  | none =>
    refine (move_ends_none hfind).mono ?_ fun _ _ => False.elim
    rintro _ _ ⟨rfl, rfl⟩
    exact h.skip hfind
  | some c =>
    obtain ⟨hlow, hhigh, -⟩ := h.inside d List.mem_cons_self c hfind
    have hcons : Consistent v' m E live committed (vacated low high true) :=
      hcons.mono fun b hb => ⟨rfl, hb.2⟩
    have hclear : v'.Clear (vacated low high true) c (.between low high) := by
      intro start _ hout b hb hin
      simp only [Occupancy.Outside, Reserved.between] at hout
      simp only [vacated] at hb
      omega
    refine (Store.move_done hcons hfind hclear fun _ b hb =>
      ⟨rfl, Nat.le_trans hlow hb.1, Nat.lt_of_lt_of_le hb.2 hhigh⟩).mono ?_ fun _ _ hf => hf
    rintro _ v'' ⟨moved, rfl, hdest, hmoved, hcons''⟩
    exact h.step hfind hdest hmoved hcons''

end Store

end BlockStore
