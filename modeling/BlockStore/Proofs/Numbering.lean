import BlockStore.Proofs.Upkeep

namespace BlockStore

open BlockStore.Action Relation

namespace Catalog

/-- The next id is at least `n`, and above those of all chunks that are held. -/
structure Numbered (n : UInt32) (k : Catalog) : Prop where
  le : n ≤ k.nextId
  lt : ∀ c ∈ k.held, c.id < k.nextId

variable {n : UInt32} {k k' : Catalog} {c : Chunk}

theorem mem_held : c ∈ k.held ↔ c ∈ k.data.chunks ∨ k.root = some c ∨ c ∈ k.removed := by
  rw [held, List.append_assoc, List.mem_append, List.mem_append, Option.mem_toList]

theorem mem_held_of_find? {id : UInt32} (h : k.find? id = some c) : c ∈ k.held := by
  rcases Option.or_eq_some_iff.1 h with h | ⟨-, h⟩
  · exact mem_held.2 (.inl (Roster.find?_eq_some.1 h).1)
  · exact mem_held.2 (.inr (.inl (Option.filter_eq_some_iff.1 h).1))

namespace Numbered

variable (h : Numbered n k)

include h

theorem issue (hlt : k.nextId.toNat + 1 < UInt32.size) :
    Numbered n { k with nextId := k.nextId + 1 } where
  le := UInt32.le_trans h.le (UInt32.le_of_lt (Store.self_lt_succ_id hlt))
  lt c hc := Store.lt_succ_id (h.lt c hc) hlt

/-- Whatever the records hold then has an id that was held before. -/
theorem of_ids (hn : k'.nextId = k.nextId) (hids : ∀ c ∈ k'.held, ∃ d ∈ k.held, c.id = d.id) :
    Numbered n k' where
  le := hn ▸ h.le
  lt c hc := by
    obtain ⟨d, hd, hid⟩ := hids c hc
    rw [hn, hid]
    exact h.lt d hd

theorem upkeep (hk : Upkeep k k') : Numbered n k' := by
  cases hk with
  | issue hlt => exact h.issue hlt
  | @commit root p version hlt hroot =>
    have hissued := h.issue hlt
    refine ⟨hissued.le, fun c hc => ?_⟩
    rcases mem_held.1 hc with hc | hc | hc
    · exact hissued.lt c (mem_held.2 (.inl hc))
    · obtain rfl := Option.some.inj hc
      rw [hroot.id_eq]
      exact Store.self_lt_succ_id hlt
    · exact absurd hc List.not_mem_nil
  | @moveRoot c block hc hroot =>
    refine h.of_ids rfl fun d hd => ?_
    rcases mem_held.1 hd with hd | hd | hd
    · exact ⟨d, mem_held.2 (.inl hd), rfl⟩
    · obtain rfl := Option.some.inj hd
      exact ⟨c, mem_held_of_find? hc, rfl⟩
    · exact ⟨d, mem_held.2 (.inr (.inr hd)), rfl⟩
  | @moveData c block hc hdata =>
    refine h.of_ids rfl fun d hd => ?_
    rcases mem_held.1 hd with hd | hd | hd
    · rcases List.mem_cons.1 ((k.data.insert_perm _).mem_iff.1 hd) with rfl | hd
      · exact ⟨c, mem_held_of_find? hc, rfl⟩
      · exact ⟨d, mem_held.2 (.inl (Roster.mem_erase.1 hd).1), rfl⟩
    · exact ⟨d, mem_held.2 (.inr (.inl hd)), rfl⟩
    · exact ⟨d, mem_held.2 (.inr (.inr hd)), rfl⟩

theorem step (hk : Step k k') : Numbered n k' := by
  cases hk with
  | upkeep hk => exact h.upkeep hk
  | @add c p hlt hc =>
    have hissued := h.issue hlt
    refine ⟨hissued.le, fun d hd => ?_⟩
    rcases mem_held.1 hd with hd | hd
    · rcases List.mem_cons.1 ((k.data.insert_perm c).mem_iff.1 hd) with rfl | hd
      · rw [hc.id_eq]
        exact Store.self_lt_succ_id hlt
      · exact hissued.lt d (mem_held.2 (.inl (Roster.mem_erase.1 hd).1))
    · exact hissued.lt d (mem_held.2 (.inr hd))
  | @drop c hc =>
    refine h.of_ids rfl fun d hd => ⟨d, ?_, rfl⟩
    rcases mem_held.1 hd with hd | hd | hd
    · exact mem_held.2 (.inl (Roster.mem_erase.1 hd).1)
    · exact mem_held.2 (.inr (.inl hd))
    · rcases List.mem_append.1 hd with hd | hd
      · exact mem_held.2 (.inr (.inr hd))
      · obtain rfl := List.mem_singleton.1 hd
        exact mem_held.2 (.inl (Roster.find?_eq_some.1 hc).1)

theorem steps (hk : ReflTransGen Step k k') : Numbered n k' := by
  induction hk with
  | refl => exact h
  | tail _ hstep ih => exact ih.step hstep

end Numbered

end Catalog

namespace Store

variable {δ : Type} [Device δ] {n : UInt32} {v w : Store δ} {c : Chunk} {payload : ByteArray}

/-- What comes of a store by requests that leave the file open, whatever becomes of them. -/
def Later (v w : Store δ) : Prop :=
  ReflTransGen (fun u w => ∃ q : Request, q.Stays ∧ (q.run u).2 = w) v w

theorem Later.steps (h : Later v w) : ReflTransGen Catalog.Step v.records w.records := by
  induction h with
  | refl => exact .refl
  | tail _ hstep ih =>
    obtain ⟨q, hq, rfl⟩ := hstep
    exact ih.trans (Request.run_steps hq _)

/-- A new chunk gets an id that is neither below `n` nor that of a chunk that is held. -/
theorem id_fresh (hv : v.records.Numbered n) (hwrite : write payload v = (.ok c, w)) :
    n ≤ c.id ∧ ∀ d ∈ v.records.held, d.id ≠ c.id := by
  have hid := ((write_step v payload).ok c w hwrite).1.id_eq
  rw [hid]
  exact ⟨hv.le, fun d hd => UInt32.ne_of_lt (hv.lt d hd)⟩

end Store

end BlockStore
