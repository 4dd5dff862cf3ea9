import BlockStore.Keeper.Scripted
import BlockStore.Proofs.Preservation

namespace BlockStore.Keeper

open BlockStore.Action Bytes Device Engine

/-- Stores write no chunks of their own. -/
structure Script.Spare (s : Script) : Prop where
  added : s.added = []
  roots : s.roots = []

namespace Scripted

variable {script : Script} {k : Scripted} {v : Bench} {s t : Site (Traced Memory Event)}
  {b : ByteArray} {D : Inventory} {c moved : Chunk} {id : UInt32} {start : Nat}

/-- The inventory that the records stand for. -/
structure Lists (script : Script) (k : Scripted) (D : Inventory) : Prop where
  follows : k.script = script
  data : k.data.chunks.Perm D.data
  root : k.root = D.root
  ids_nodup : (D.chunks.map Chunk.id).Nodup

/-- How the keeper behaves while it follows a script: chunks that have vanished are hidden, and the
refusals are those of the script. -/
def conduct (script : Script) : Conduct Scripted where
  View _ k _ D := Lists script k D
  Remains k _ D := Lists script k D
  hidden id := id ∈ script.vanished
  growth := 0
  fails f := Fallible.refusal (Traced Memory Event) f ∨ f = .error (.device .plannedStore)
  stale f := f = .error (.corruption .planned)

namespace Lists

theorem chunks_perm (h : Lists script k D) :
    (k.data.chunks ++ k.root.toList).Perm D.chunks := by
  rw [Inventory.chunks, h.root]
  exact h.data.append_right _

/-- The root comes before a data chunk, but they do not share an id. -/
theorem find?_iff (h : Lists script v.records D) :
    Bench.find? v id = some c ↔ c ∈ D.chunks ∧ c.id = id := by
  rw [Bench.find?, Option.or_eq_some_iff, h.root, Roster.find?_eq_some, h.data.mem_iff,
    Inventory.mem_chunks]
  constructor
  · rintro (hr | ⟨-, hd, hid⟩)
    · obtain ⟨hroot, hid⟩ := Option.filter_eq_some_iff.1 hr
      exact ⟨.inr hroot, of_decide_eq_true hid⟩
    · exact ⟨.inl hd, hid⟩
  · rintro ⟨hd | hr, rfl⟩
    · refine .inr ⟨Option.filter_eq_none_iff.2 fun r hr hid => ?_, hd, rfl⟩
      have hids := h.ids_nodup
      rw [Inventory.chunks, List.map_append] at hids
      exact (List.nodup_append.1 hids).2.2 c.id (List.mem_map_of_mem hd) r.id
        (List.mem_map_of_mem (Option.mem_toList.2 hr)) (of_decide_eq_true hid).symm
    · exact .inl (Option.filter_eq_some_iff.2 ⟨hr, decide_eq_true rfl⟩)

theorem relocate_ids_nodup (h : Lists script k D) :
    ((D.relocate moved).chunks.map Chunk.id).Nodup := by
  have hsame : Chunk.id ∘ moved.follow = Chunk.id := funext moved.id_follow
  rw [Inventory.chunks_relocate, List.map_map, hsame]
  exact h.ids_nodup

/-- A data chunk has moved. -/
theorem insert (h : Lists script k D) (hc : c ∈ k.data.chunks) (hid : moved.id = c.id)
    (hroot : ∀ r, k.root = some r → r.id ≠ moved.id) :
    Lists script { k with data := k.data.insert moved } (D.relocate moved) := by
  refine ⟨h.follows, (Roster.insert_perm_follow hc hid).trans (h.data.map _), ?_,
    h.relocate_ids_nodup⟩
  change k.root = D.root.map moved.follow
  rw [← h.root]
  cases hk : k.root with
  | none => rfl
  | some r => exact congrArg some (if_neg (hroot r hk)).symm

/-- The root has moved. -/
theorem setRoot (h : Lists script k D) (hc : k.root = some c) (hid : moved.id = c.id) :
    Lists script { k with root := some moved } (D.relocate moved) := by
  have hids := h.ids_nodup
  rw [Inventory.chunks, ← h.root, hc, List.map_append] at hids
  refine ⟨h.follows, ?_, ?_, h.relocate_ids_nodup⟩
  · change k.data.chunks.Perm (D.data.map moved.follow)
    rw [Chunk.map_follow_of_absent fun d hd => ?_]
    · exact h.data
    · rw [hid]
      exact (List.nodup_append.1 hids).2.2 d.id (List.mem_map_of_mem hd) c.id List.mem_cons_self
  · change some moved = D.root.map moved.follow
    rw [← h.root, hc]
    exact congrArg some (if_pos hid.symm).symm

end Lists

/-- What the records drop, they let go of one by one; the blocks stay taken. -/
theorem erase_steps {e : Engine (Traced Memory Event)} (gone : List UInt32)
    (h : Lists script k D) (hs : Site.Sound ⟨e, b, D⟩) :
    ∃ D', Lists script { k with data := gone.foldl Roster.erase k.data } D' ∧
      Site.Steps ⟨e, b, D⟩ ⟨e, b, D'⟩ := by
  induction gone generalizing k D with
  | nil => exact ⟨D, h, .refl⟩
  | cons id rest ih =>
    rw [List.foldl_cons]
    cases hfind : k.data.find? id with
    | none =>
      refine ih (k := { k with data := k.data.erase id }) ⟨h.follows, ?_, h.root, h.ids_nodup⟩ hs
      change (k.data.erase id).chunks.Perm _
      rw [Roster.chunks_erase_of_absent (Roster.find?_eq_none.1 hfind)]
      exact h.data
    | some c =>
      obtain ⟨hc, rfl⟩ := Roster.find?_eq_some.1 hfind
      have hstep : Site.Step ⟨e, b, D⟩ ⟨e, b, { D with
          data := (k.data.erase c.id).chunks
          loose := c :: D.loose }⟩ := .drop (h.data.symm.trans (Roster.perm_erase hc))
      have hsound := hstep.sound hs
      have hleft : Lists script { k with data := k.data.erase c.id } { D with
          data := (k.data.erase c.id).chunks
          loose := c :: D.loose } := ⟨h.follows, .refl _, h.root, hsound.ids_nodup⟩
      obtain ⟨D', hlists, hsteps⟩ := ih hleft hsound
      exact ⟨D', hlists, .head hstep hsteps⟩

/-- A note is for the log alone. -/
theorem note_ends (event : Event) (h : v.engine.Has b) : Ends (Bench.note event) v
    (fun _ w => v.engine.Rests b w.engine ∧ w.engine.appendFrom = v.engine.appendFrom ∧
      w.records = v.records) fun _ _ => False := by
  unfold Bench.note Volume.onEngine Engine.onDevice Traced.note
  rw [ends_within, ends_within, ends_modify]
  exact ⟨⟨h, rfl⟩, rfl, rfl⟩

/-- The records follow a chunk that has moved, or are as they were if the script says so. -/
theorem register_ends (h : Lists script k s.inventory) (hm : s.Moves c start t)
    (ht : t.engine.Has t.bytes) :
    Ends (Bench.register (c.movedTo start)) ⟨t.engine, k⟩ (fun _ w =>
      Lists script w.records t.inventory ∧ w.engine.appendFrom = t.engine.appendFrom ∧
        t.engine.Rests t.bytes w.engine)
      fun f w => f = .error (.corruption .planned) ∧ Lists script w.records s.inventory ∧
        t.engine.Rests t.bytes w.engine := by
  have hinv := hm.inventory
  have hid : (c.movedTo start).id = c.id := rfl
  refine (note_ends (v := ⟨t.engine, k⟩) _ ht).bind ?_ fun _ _ hno => hno.elim
  rintro _ ⟨e, records⟩ ⟨hrests, happend, hrecords⟩
  obtain rfl : records = k := hrecords
  rw [ends_bind, ends_get]
  dsimp only
  split
  · rw [ends_bind, ends_refuse]
    exact ⟨rfl, h, hrests⟩
  rw [hinv]
  split
  · next hany =>
    obtain ⟨r, hr, hrid⟩ := (Option.any_eq_true _ _).1 hany
    exact ends_modify.2 ⟨h.setRoot hr (of_decide_eq_true hrid).symm, happend, hrests⟩
  · next hany =>
    have hother (r : Chunk) (hr : records.root = some r) : r.id ≠ (c.movedTo start).id := by
      intro heq
      rw [hr] at hany
      exact hany (decide_eq_true heq)
    have hdata : c ∈ records.data.chunks := by
      refine h.data.mem_iff.2 ((Inventory.mem_chunks.1 hm.mem).resolve_right fun hr => ?_)
      exact hother c (h.root.trans hr) rfl
    exact ends_modify.2 ⟨h.insert hdata hid hother, happend, hrests⟩

/-- A store that writes nothing drops chunks at most. -/
theorem store_ends (hspare : script.Spare) (h : Lists script v.records D)
    (hs : Site.Sound ⟨v.engine, b, D⟩) :
    Ends Bench.store v (fun _ w => w.engine.appendFrom = v.engine.appendFrom ∧
      ∃ D', Lists script w.records D' ∧ Site.Steps ⟨v.engine, b, D⟩ ⟨w.engine, b, D'⟩)
      fun f w => f = .error (.device .plannedStore) ∧
        Lists script w.records D ∧ Site.Steps ⟨v.engine, b, D⟩ ⟨w.engine, b, D⟩ := by
  have hcount (stores : Nat) : Lists script { v.records with stores } D :=
    ⟨h.follows, h.data, h.root, h.ids_nodup⟩
  unfold Bench.store Bench.record
  rw [ends_bind, ends_modify, ends_bind, ends_get]
  dsimp only
  refine (note_ends (v := ⟨v.engine, _⟩) _ hs.has).bind ?_ fun _ _ hno => hno.elim
  rintro _ ⟨e, records⟩ ⟨hrests, happend, hrecords⟩
  obtain rfl : records = _ := hrecords
  have hstep : Site.Step ⟨v.engine, b, D⟩ ⟨e, b, D⟩ := .idle hrests
  dsimp only
  have hadded : v.records.script.added = [] := h.follows ▸ hspare.added
  have hroots : v.records.script.roots = [] := h.follows ▸ hspare.roots
  rw [hadded, hroots, List.take_nil]
  split
  · rw [ends_bind, ends_refuse]
    exact ⟨rfl, hcount _, .single hstep⟩
  split
  · obtain ⟨D', hlists, hsteps⟩ := erase_steps v.records.script.dropped (hcount _) (hstep.sound hs)
    rw [ends_bind, ends_modify, ends_bind]
    exact ends_pure.2 (ends_pure.2 ⟨happend, D', hlists, .head hstep hsteps⟩)
  · rw [ends_bind]
    exact ends_pure.2 (ends_pure.2 ⟨happend, D, hcount _, .single hstep⟩)

/-- A keeper that hides chunks, and refuses registrations and stores by its script, meets the
contract as long as its stores write no chunks. -/
theorem tolerant (hspare : script.Spare) : Tolerant (Traced Memory Event) (conduct script) where
  fails hf := .inl hf
  mono h _ := h
  remains h := h
  chunks h := h.chunks_perm
  chunk? := by
    intro _ v _ D id c h
    change (if id ∈ v.records.script.vanished then none else Bench.find? v id) = some c ↔
      c ∈ D.chunks ∧ c.id = id ∧ id ∉ script.vanished
    rw [h.follows]
    by_cases hid : id ∈ script.vanished
    · simp [hid]
    · rw [if_neg hid, h.find?_iff]
      exact ⟨fun hc => ⟨hc.1, hc.2, hid⟩, fun hc => ⟨hc.1, hc.2.1⟩⟩
  root? h := h.root
  idle h _ _ := h
  register := by
    intro _ _ _ s t _ h hs _ hm
    have hstep {e : Engine (Traced Memory Event)} (hrests : t.engine.Rests t.bytes e) :
        Site.Steps t ⟨e, t.bytes, t.inventory⟩ := .single (.idle hrests)
    refine (register_ends h hm (hm.sound hs).has).mono ?_ ?_
    · rintro _ w ⟨hlists, happend, hrests⟩
      exact ⟨t.bytes, hlists, Nat.le_of_eq happend, hstep hrests⟩
    · rintro f w ⟨hf, hlists, hrests⟩
      exact ⟨t.bytes, .inr ⟨hf, hlists⟩, hstep hrests⟩
  store := by
    intro _ v b D h hs _
    refine (store_ends hspare h hs).mono ?_ ?_
    · rintro _ w ⟨happend, D', hlists, hsteps⟩
      exact ⟨b, D', hlists, hsteps, by omega⟩
    · rintro f w ⟨hf, hlists, hsteps⟩
      exact ⟨.inr hf, b, D, hlists, hsteps⟩

/-- Whatever the script refuses and drops, a pass leaves the chunks that have vanished where they
are, and the others with what they hold. Only a refusal to register leaves one record behind. -/
theorem compact_upholds {passBytes : Nat} (hspare : script.Spare)
    (hdata : v.records.data.chunks.Perm D.data) (hroot : v.records.root = D.root)
    (hs : Site.Sound ⟨v.engine, b, D⟩)
    (hroom : Volume.Leeway (Traced Memory Event) v.engine.appendFrom 0) :
    Ends (Bench.compact script passBytes) v
      (fun _ w => ∃ b', Volume.Preserved (· ∈ script.vanished) v b w b' w.chunks)
      fun f w => f ≠ .error (.corruption .planned) ∧
          (∃ b', Volume.Preserved (· ∈ script.vanished) v b w b' w.chunks) ∨
        f = .error (.corruption .planned) ∧ ∃ b' moved,
          Volume.Preserved (· ∈ script.vanished) v b w b' (w.chunks.map (Chunk.follow moved)) := by
  have hlists : Lists script { v.records with script, stores := 0 } D :=
    ⟨rfl, hdata, hroot, hs.ids_nodup⟩
  -- The script is not among what is preserved.
  have hback {w : Bench} {b' : ByteArray} {cs : List Chunk}
      (h : Volume.Preserved (conduct script).hidden
        ⟨v.engine, { v.records with script, stores := 0 }⟩ b w b' cs) :
      Volume.Preserved (· ∈ script.vanished) v b w b' cs :=
    ⟨h.has, h.used, h.apart, h.valid, h.same, h.untouched⟩
  unfold Bench.compact Bench.record
  rw [ends_bind, ends_modify]
  refine (Volume.compact_upholds (v := ⟨v.engine, _⟩) (tolerant hspare) hlists hs hroom).mono ?_ ?_
  · rintro _ w ⟨-, b', h⟩
    exact ⟨b', hback h⟩
  · rintro f w ⟨-, ⟨hf, b', h⟩ | ⟨hf, b', moved, h⟩⟩
    · refine .inl ⟨?_, b', hback h⟩
      rintro rfl
      rcases hf with (hno | ⟨kind, hno⟩) | hno
      · exact hno.elim
      · cases hno
      · cases hno
    · exact .inr ⟨hf, b', moved, hback h⟩

end Scripted

end BlockStore.Keeper
