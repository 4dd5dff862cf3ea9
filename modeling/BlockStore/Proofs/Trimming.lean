import BlockStore.Proofs.Operations

namespace BlockStore.Store

open BlockStore.Action Engine Device

variable {δ : Type} [Device δ] [Lawful δ] {v : Store δ} {m : Medium} {E : Edition}
  {live committed : Contents} {shield : Nat → Prop} {e' : Engine δ}

namespace Consistent

theorem sync (h : Consistent v m E live committed shield) (k : v.engine.Keeps m.sync e') :
    Consistent ⟨e', v.records⟩ m.sync E live committed shield :=
  { h with
    shows := k.1
    layout := k.2.1 ▸ h.layout
    stop_le := k.2.1 ▸ h.stop_le
    settled := h.settled.sync }

/-- The file may end behind the last block in use. -/
theorem cut (h : Consistent v m E live committed bare)
    (k : v.engine.Keeps (m.sync.change (.cut (v.engine.occupancy.stop * blockSize))) e') :
    Consistent ⟨e', v.records⟩ (m.sync.change (.cut (v.engine.occupancy.stop * blockSize))) E live
      committed bare := by
  have hheld (c : Chunk) (hc : c ∈ E.held) : c.after ≤ v.engine.occupancy.stop := by
    have hlen := h.settled.sound.len_pos c hc
    have hlast := h.shielded c hc (c.after - 1)
      ⟨by rw [Chunk.after_eq]; omega, by rw [Chunk.after_eq]; omega⟩
    rcases hlast with hu | hb
    · have := Occupancy.lt_stop hu
      omega
    · exact hb.elim
  refine { h with
    shows := k.1
    layout := k.2.1 ▸ h.layout
    stop_le := ?_
    stocks := ?_
    settled := h.settled.sync.change ?_ fun c hc => Chunk.spares_cut (hheld c hc) }
  · rw [k.2.1, Medium.content_change, Change.size_apply_cut, Medium.content_sync]
    exact Nat.le_min.2 ⟨Nat.le_refl _, h.stop_le⟩
  · rw [Medium.content_change, Medium.content_sync]
    refine h.stocks.change fun c hc => Chunk.spares_cut (h.layout.after_le_stop ?_)
    exact List.mem_append_left _ (List.mem_append_left _ hc)
  · rw [Change.Avoids, Nat.zero_add, headerBytes]
    exact Nat.mul_le_mul_right _ h.header_pos

/-- Whether the file was cut or not, the store is as consistent as before. -/
theorem shrunk (h : Consistent v m E live committed bare) (hk : v.engine.Keeps m e' ∨
      v.engine.Keeps (m.sync.change (.cut (v.engine.occupancy.stop * blockSize))) e') :
    ∃ m₁, e'.occupancy = v.engine.occupancy ∧ e'.mode = v.engine.mode ∧
      Consistent ⟨e', v.records⟩ m₁ E live committed bare := by
  rcases hk with k | k
  · exact ⟨m, k.2.1, k.2.2, h.of_keeps k⟩
  · exact ⟨_, k.2.1, k.2.2, h.cut k⟩

end Consistent

theorem sync_ends (h : Consistent v m E live committed shield) :
    Ends (Volume.onEngine Engine.sync) v (fun _ v' => v'.records = v.records ∧
      v'.engine.occupancy = v.engine.occupancy ∧ v'.engine.mode = v.engine.mode ∧
      Consistent v' m.sync E live committed shield) (CutOff committed live) := by
  rw [Volume.onEngine, ends_within]
  refine (Engine.sync_ends h.shows).mono ?_ ?_
  · exact fun _ e₁ k => ⟨rfl, k.2.1, k.2.2, h.sync k⟩
  · exact fun f e₁ hf => ⟨hf.1, _, hf.2, (h.settled.safe _ _)⟩

/-- With nothing under a shield the file is cut behind the last block in use, if that is worth it,
and made durable. -/
theorem trim_ends (percent : Nat) (h : Consistent v m E live committed bare)
    (hroom : v.engine.occupancy.stop * blockSize * 100 < UInt64.size) :
    Ends (Volume.onEngine do discard (shrink percent); Engine.sync) v (fun _ v' =>
      v'.records = v.records ∧ v'.engine.occupancy = v.engine.occupancy ∧
      v'.engine.mode = v.engine.mode ∧ ∃ m', m'.pending = [] ∧
      Consistent v' m' E live committed bare) (CutOff committed live) := by
  rw [Volume.onEngine, ends_within, ends_bind, ends_discard]
  refine (shrink_ends h.shows h.layout.blockSize hroom).mono ?_ ?_
  · rintro _ e₁ hk
    obtain ⟨m₁, ho, hm, h₁⟩ := h.shrunk hk
    refine (Engine.sync_ends h₁.shows).mono ?_ ?_
    · exact fun _ e₂ k₂ => ⟨rfl, k₂.2.1.trans ho, k₂.2.2.trans hm, m₁.sync, rfl, h₁.sync k₂⟩
    · exact fun f e₂ hf => ⟨hf.1, _, hf.2, (h₁.settled.safe _ _)⟩
  · rintro f e₁ (⟨hf, h₁⟩ | ⟨hf, h₁⟩)
    · exact ⟨hf, _, h₁, (h.settled.safe _ _)⟩
    · exact ⟨hf, _, h₁, (h.settled.sync.safe _ _)⟩

end BlockStore.Store
