import BlockStore.Catalog
import Mathlib

namespace BlockStore

namespace Roster

theorem insertInto_of_lt {c : Chunk} {ds : List Chunk} (h : ∀ d ∈ ds, d.id < c.id) :
    insertInto c ds = ds ++ [c] := by
  induction ds with
  | nil => rfl
  | cons d ds ih =>
    have hd := h d List.mem_cons_self
    rw [insertInto, if_neg (UInt32.lt_asymm hd), if_neg (UInt32.ne_of_lt hd).symm,
      ih fun e he => h e (List.mem_cons_of_mem _ he), List.cons_append]

theorem chunks_ofList {cs : List Chunk} (h : cs.Pairwise (·.id < ·.id)) :
    (ofList cs).chunks = cs := by
  have fold (r : Roster) {cs : List Chunk} (h : (r.chunks ++ cs).Pairwise (·.id < ·.id)) :
      (cs.foldl insert r).chunks = r.chunks ++ cs := by
    induction cs generalizing r with
    | nil => exact (List.append_nil _).symm
    | cons c cs ih =>
      have hc : (r.insert c).chunks = r.chunks ++ [c] :=
        insertInto_of_lt fun d hd => (List.pairwise_append.1 h).2.2 d hd c List.mem_cons_self
      rw [List.foldl_cons, ih, hc, List.append_assoc, List.singleton_append]
      rwa [hc, List.append_assoc, List.singleton_append]
  exact fold .empty h

variable {r : Roster} {c d : Chunk} {id : UInt32}

theorem nodup (r : Roster) : r.chunks.Nodup :=
  r.ascending.imp fun hlt heq => UInt32.ne_of_lt hlt (congrArg Chunk.id heq)

theorem nodup_ids (r : Roster) : (r.chunks.map Chunk.id).Nodup :=
  r.ascending_ids.imp fun hlt => UInt32.ne_of_lt hlt

theorem eq_of_id_eq (hc : c ∈ r.chunks) (hd : d ∈ r.chunks) (h : c.id = d.id) : c = d :=
  List.inj_on_of_nodup_map r.nodup_ids hc hd h

theorem find?_eq_some : r.find? id = some c ↔ c ∈ r.chunks ∧ c.id = id := by
  unfold find?
  constructor
  · exact fun h => ⟨List.mem_of_find?_eq_some h, by simpa using List.find?_some h⟩
  · rintro ⟨hc, rfl⟩
    rcases hd : r.chunks.find? (·.id = c.id) with _ | d
    · have hno := List.find?_eq_none.1 hd c hc
      simp at hno
    · have hid : d.id = c.id := by simpa using List.find?_some hd
      exact hd.trans (congrArg some (eq_of_id_eq (List.mem_of_find?_eq_some hd) hc hid))

theorem find?_eq_none : r.find? id = none ↔ ∀ c ∈ r.chunks, c.id ≠ id := by
  rw [find?, List.find?_eq_none]
  simp

theorem insertInto_perm (c : Chunk) {ds : List Chunk} (h : ds.Pairwise (·.id < ·.id)) :
    (insertInto c ds).Perm (c :: ds.filter (·.id ≠ c.id)) := by
  have hkeep {es : List Chunk} (he : ∀ e ∈ es, c.id < e.id) : es.filter (·.id ≠ c.id) = es :=
    List.filter_eq_self.2 fun e hm => decide_eq_true (UInt32.ne_of_lt (he e hm)).symm
  induction ds with
  | nil => exact .refl _
  | cons e es ih =>
    obtain ⟨he, hes⟩ := List.pairwise_cons.1 h
    unfold insertInto
    split
    · next hlt =>
      rw [hkeep]
      exact List.forall_mem_cons.2 ⟨hlt, fun d hd => UInt32.lt_trans hlt (he d hd)⟩
    · split
      · next heq =>
        rw [List.filter_cons_of_neg (by simp [heq]), hkeep fun d hd => heq ▸ he d hd]
      · next hne =>
        rw [List.filter_cons_of_pos (by simp [Ne.symm hne])]
        exact ((ih hes).cons e).trans (.swap c e _)

theorem insert_perm (r : Roster) (c : Chunk) :
    (r.insert c).chunks.Perm (c :: (r.erase c.id).chunks) := insertInto_perm c r.ascending

theorem chunks_erase_of_absent (h : ∀ c ∈ r.chunks, c.id ≠ id) : (r.erase id).chunks = r.chunks :=
  List.filter_eq_self.2 fun c hc => decide_eq_true (h c hc)

theorem mem_erase : c ∈ (r.erase id).chunks ↔ c ∈ r.chunks ∧ c.id ≠ id := by
  simp [erase]

/-- A chunk that is kept stands among the others as if it had just been added. -/
theorem perm_erase (hc : c ∈ r.chunks) : r.chunks.Perm (c :: (r.erase c.id).chunks) := by
  have herase : (c :: (r.erase c.id).chunks).Nodup :=
    List.nodup_cons.2 ⟨fun h => (mem_erase.1 h).2 rfl, r.nodup.filter _⟩
  refine (List.perm_ext_iff_of_nodup r.nodup herase).2 fun d => ?_
  rw [List.mem_cons, mem_erase]
  constructor
  · intro hd
    by_cases hid : d.id = c.id
    · exact .inl (eq_of_id_eq hd hc hid)
    · exact .inr ⟨hd, hid⟩
  · rintro (rfl | ⟨hd, -⟩)
    · exact hc
    · exact hd

theorem size_insert (hc : c ∈ r.chunks) (h : d.id = c.id) : (r.insert d).size = r.size := by
  have h1 := (r.insert_perm d).length_eq
  have h2 := (perm_erase hc).length_eq
  rw [h] at h1
  exact h1.trans h2.symm

end Roster

/-- The chunks whose blocks are in use. -/
def Catalog.held (c : Catalog) : List Chunk := c.data.chunks ++ c.root.toList ++ c.removed

namespace Catalog

theorem data_subperm (c : Catalog) : c.data.chunks.Subperm c.held :=
  ((List.sublist_append_left _ _).trans (List.sublist_append_left _ _)).subperm

theorem chunks_subperm (c : Catalog) : c.chunks.Subperm c.held :=
  (List.sublist_append_left _ _).subperm

variable {c : Catalog} {d : Chunk} {id : UInt32}

theorem mem_chunks : d ∈ c.chunks ↔ d ∈ c.data.chunks ∨ c.root = some d := by
  rw [chunks, List.mem_append, Option.mem_toList]

theorem nodup_ids_chunks (h : (c.held.map Chunk.id).Nodup) : (c.chunks.map Chunk.id).Nodup := by
  obtain ⟨l, hperm, hl⟩ := c.chunks_subperm
  exact (hperm.map Chunk.id).nodup_iff.1 (h.sublist (hl.map Chunk.id))

theorem id_of_find? (h : c.find? id = some d) : d.id = id := by
  rcases Option.or_eq_some_iff.1 h with hd | ⟨-, hr⟩
  · exact (Roster.find?_eq_some.1 hd).2
  · exact of_decide_eq_true (Option.filter_eq_some_iff.1 hr).2

/-- A payload comes before the root. -/
theorem data_find?_of_find? (h : c.find? id = some d) (hs : (c.data.find? id).isSome) :
    c.data.find? id = some d := by
  obtain ⟨e, he⟩ := Option.isSome_iff_exists.1 hs
  rw [find?, he, Option.some_or] at h
  rw [he, h]

theorem find?_eq_some_iff (h : (c.chunks.map Chunk.id).Nodup) :
    c.find? id = some d ↔ d ∈ c.chunks ∧ d.id = id := by
  rw [find?, Option.or_eq_some_iff, mem_chunks]
  constructor
  · rintro (hd | ⟨-, hr⟩)
    · obtain ⟨hmem, hid⟩ := Roster.find?_eq_some.1 hd
      exact ⟨.inl hmem, hid⟩
    · obtain ⟨hroot, hid⟩ := Option.filter_eq_some_iff.1 hr
      exact ⟨.inr hroot, of_decide_eq_true hid⟩
  · rintro ⟨hd | hr, rfl⟩
    · exact .inl (Roster.find?_eq_some.2 ⟨hd, rfl⟩)
    · refine .inr ⟨Roster.find?_eq_none.2 fun e he hid => ?_, ?_⟩
      · rw [chunks, hr, List.map_append] at h
        exact (List.nodup_append.1 h).2.2 e.id (List.mem_map_of_mem he) d.id
          (List.mem_map_of_mem List.mem_cons_self) hid
      · exact Option.filter_eq_some_iff.2 ⟨hr, decide_eq_true rfl⟩

theorem find?_eq_some (h : (c.held.map Chunk.id).Nodup) :
    c.find? id = some d ↔ d ∈ c.chunks ∧ d.id = id := find?_eq_some_iff (nodup_ids_chunks h)

end Catalog

end BlockStore
