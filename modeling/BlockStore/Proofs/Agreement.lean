import BlockStore.Proofs.Forecast

namespace BlockStore

open BlockStore.Engine BlockStore.Device

/-- An edition makes one catalog. -/
theorem Edition.IsCatalog.unique {E : Edition} {c c' : Catalog} (h : E.IsCatalog c)
    (h' : E.IsCatalog c') : c = c' := by
  obtain ⟨⟨chunks, _⟩, root, removed, nextId, version, dirty⟩ := c
  obtain ⟨⟨chunks', _⟩, root', removed', nextId', version', dirty'⟩ := c'
  obtain ⟨rfl, rfl, rfl, rfl, rfl, rfl⟩ := h
  obtain ⟨h1, h2, h3, h4, h5, h6⟩ := h'
  dsimp only at h1 h2 h3 h4 h5 h6
  subst h1 h2 h3 h4 h5 h6
  rfl

namespace Store

variable {δ : Type} [Device δ] [Faithful δ] {v : Store δ} {m : Medium} {E : Edition}
  {live committed : Contents}

/-- Whoever opens the file finds the records of the store, and the same blocks in use. -/
def Agrees (v : Store δ) : Prop :=
  ∀ (ε : Type) [Device ε] [Legible ε] (d : ε) (settings : Settings),
    Legible.Has d (Faithful.bytes v.engine.device) → settings.Usable →
    ∃ w, openOn settings d = .ok w ∧ w.records = v.records ∧
      ∀ n, n ∈ w.engine.occupancy.used ↔ n ∈ v.engine.occupancy.used

theorem Consistent.isCatalog (h : Consistent v m E live committed bare)
    (hclean : v.records.dirty = false) (hremoved : v.records.removed = []) :
    E.IsCatalog v.records :=
  have hE := h.clean hclean
  ⟨hE.1.symm, h.root, hremoved, hE.2.1.symm, h.version, hclean⟩

/-- With nothing left to commit, the last commit tells all that the store knows. -/
theorem Consistent.agrees (h : Consistent v m E live committed bare)
    (hclean : v.records.dirty = false) (hremoved : v.records.removed = []) : Agrees v := by
  intro ε _ _ d settings hd hs
  rw [Faithful.bytes_eq h.shows] at hd
  have hread := h.settled.read_content
  have hc := h.isCatalog hclean hremoved
  have hword : m.content.size < UInt64.size :=
    Nat.lt_trans (Lawful.size_lt h.shows) (room_lt (δ := δ))
  obtain ⟨w, hw, hrecords, hused⟩ := hread.opens hword hd hs
  refine ⟨w, hw, hrecords.trans (h.settled.sound.isCatalog.unique hc), fun n => ?_⟩
  rw [hused, h.layout.mem_used, hc.held_eq]

/-- A store that has nothing left to commit agrees with its file, and to close a store leaves nothing
to commit and loses no payload. -/
theorem Attained.agrees_with_file (hv : Attained v) : (v.records.dirty = false → Agrees v) ∧
    ∀ w, close v = (.ok (), w) → w.records.dirty = false ∧ w.records.data = v.records.data ∧
      (v.records.dirty = false → w.records = v.records) ∧ Agrees w := by
  obtain ⟨-, htidy, m, E, live, committed, hcons⟩ := hv.sane
  refine ⟨fun hclean => hcons.agrees hclean (htidy hclean), fun w hclose => ?_⟩
  obtain ⟨-, hdata, hidle, hdirty, hremoved, m', E', hw⟩ := (close_done hcons).ok _ _ hclose
  refine ⟨hdirty, hdata, hidle, hw.agrees hdirty ?_⟩
  cases hclean : v.records.dirty with
  | true => exact hremoved hclean
  | false => rw [hidle hclean, htidy hclean]

/-- So it is in memory, for a store that has committed one chunk and removed another. -/
theorem agrees_with_file_committed : ∃ v : Store Memory, Attained v ∧ v.records.root.isSome ∧
    v.records.data.ids = [2] ∧
    ∃ w : Store Memory, openOn {} { bytes := v.engine.device.bytes } = .ok w ∧
      w.records = v.records ∧ ∀ n, n ∈ w.engine.occupancy.used ↔ n ∈ v.engine.occupancy.used := by
  have hs : Settings.Usable {} := ⟨rfl, by decide⟩
  have hforecast : ∃ f ∈ Forecast.run Bytes.limit [.zeros 10, .zeros 5000, .remove 1, .commit]
      ⟨.blank {}, {}⟩, f.sketch.records.root.isSome ∧ f.sketch.records.data.ids = [2] ∧
        f.sketch.records.dirty = false := by decide +kernel
  obtain ⟨s, -, hserved, hroot, hids, hclean⟩ := Session.exists_in_memory hs hforecast
  exact ⟨s.store, hserved.attained, hroot, hids, hserved.attained.agrees_with_file.1 hclean Memory
    { bytes := s.store.engine.device.bytes } {} rfl hs⟩

end Store

end BlockStore
