import BlockStore.Proofs.Session

namespace BlockStore

open BlockStore.Action Engine Device

/-- The blocks in use are those of the header and of the chunks that are held, each block for one of
these only; the ids of the chunks differ and lie below the next one; the file reaches as far as the
blocks do; and nothing is reserved. -/
structure Store.Accounted {δ : Type} [Device δ] (v : Store δ) : Prop where
  mem_used : ∀ b, b ∈ v.engine.occupancy.used ↔
    b < headerBlocks ∨ ∃ c ∈ v.records.held, c.Covers b
  apart : v.records.held.Pairwise Chunk.Apart
  header_le : ∀ c ∈ v.records.held, headerBlocks ≤ c.first
  len_pos : ∀ c ∈ v.records.held, 0 < c.len.toNat
  ids_nodup : (v.records.held.map Chunk.id).Nodup
  ids_lt : ∀ c ∈ v.records.held, c.id < v.records.nextId
  stop_le : v.engine.occupancy.stop * blockSize ≤ v.engine.size
  reserved : v.engine.reserved = .nothing

namespace Session

variable {δ : Type} [Device δ] [Lawful δ]

theorem Known.accounted {s : Session δ} (h : Known s) : s.store.Accounted := by
  obtain ⟨hn, m, E, hcons⟩ := h
  have hl := hcons.layout
  refine ⟨hl.mem_used, hl.apart, hl.header_le, hl.len_pos, hcons.ids_nodup, hcons.ids_lt, ?_, hn⟩
  rw [size_eq hcons.shows]
  exact hcons.stop_le

/-- Whatever requests have been answered, every block is accounted for. -/
theorem space_accounted {s : Session δ} (h : Reachable (fun _ => True) s) : s.store.Accounted :=
  h.known.accounted

/-- So it is after a payload has been written to a new store in memory. -/
theorem space_accounted_written : ∃ s : Session Memory, Reachable (fun _ => True) s ∧
    s.ledger.issued ≠ [] ∧ s.store.Accounted := by
  obtain ⟨v, hreach, hspacious, -⟩ := exists_opened fun _ => True
  have hfits : (Request.write "payload".toUTF8).Fits v := ⟨hspacious, by decide⟩
  obtain ⟨reply, w, hrun, hkept⟩ :=
    ((hreach.known.run_ends hfits).mono (fun _ _ hk => hk) fun _ _ hcut => hcut.1).total
  obtain ⟨id, rfl, -⟩ := hkept.answered nofun
  have hwritten := Reachable.answered hreach trivial hfits hrun
  exact ⟨_, hwritten, List.cons_ne_nil _ _, space_accounted hwritten⟩

end Session

end BlockStore
