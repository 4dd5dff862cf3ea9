import BlockStore.Proofs.Forecast

namespace BlockStore.Session

open BlockStore.Action Engine Device Store

variable {δ : Type} [Device δ] [Lawful δ]

/-- On a device without failures a store is a map from ids to payloads: with usable settings every
session begins, each of its requests gets the answer of the map, and the ids on record are those of
the map. -/
theorem requests_answered (hfails : ¬Lawful.fails δ) :
    (∀ {d : δ} {m : Medium} {settings : Settings}, headerBytes < Lawful.room δ →
      Lawful.Shows d m → m.content.size = 0 → settings.Usable → ∃ v, openOn settings d = .ok v) ∧
    ∀ {s : Session δ}, Reachable Request.Orderly s →
      s.store.records.data.ids.Pairwise (· < ·) ∧
      (∀ id, id ∈ s.store.records.data.ids ↔ (s.ledger.live id).isSome) ∧
      ∀ q : Request, q.Fits s.store → ∃ reply v, q.run s.store = (.ok reply, v) ∧
        q.Answered s.ledger s.store.records.root reply := by
  constructor
  · intro d m settings hroom hd hm hs
    rcases openOn_of_empty hd hm hs hroom with ⟨v, hv, -⟩ | ⟨hf, -⟩
    · exact ⟨v, hv⟩
    · exact absurd hf hfails
  · intro s hs
    obtain ⟨-, m, E, hcons⟩ := hs.known
    refine ⟨s.store.records.data.ascending_ids, fun id => hcons.stocks.mem_ids, fun q hq => ?_⟩
    obtain ⟨reply, v, hrun, hkept⟩ :=
      ((hs.known.run_ends hq).mono (fun _ _ hk => hk) fun _ _ hcut => hfails hcut.1).total
    exact ⟨reply, v, hrun, hkept.answered hs.issued_lt⟩

/-- So it is in memory, for a store that has committed one payload and removed another: what is read
is what was written. -/
theorem requests_answered_written : ∃ s : Session Memory, Reachable Request.Orderly s ∧
    s.ledger.live 1 = none ∧ s.ledger.live 2 = some (Bytes.ofList [7]) ∧
    s.store.records.data.ids = [2] ∧
    ∃ v, (Request.read 2).run s.store = (.ok (.data (.ok (Bytes.ofList [7]))), v) := by
  have husable : Settings.Usable {} := ⟨rfl, by decide⟩
  have hforecast : ∃ f ∈ Forecast.run Bytes.limit
      [.zeros 10, .write (Bytes.ofList [7]) 1 rfl, .remove 1, .commit] ⟨.blank {}, {}⟩,
      f.ledger.live 1 = none ∧ f.ledger.live 2 = some (Bytes.ofList [7]) ∧
        f.sketch.records.data.ids = [2] ∧ f.sketch.Spacious Bytes.limit := by decide +kernel
  obtain ⟨s, hs, -, hone, htwo, hids, hspacious⟩ := exists_in_memory husable hforecast
  have hspacious' := spacious_of_sketch (Nat.le_refl _) hspacious
  obtain ⟨reply, v, hrun, hdata, -⟩ :=
    ((requests_answered fun h => h).2 hs).2.2 (.read 2) hspacious'
  obtain rfl := hdata _ htwo
  exact ⟨s, hs, hone, htwo, hids, v, hrun⟩

end BlockStore.Session
