import BlockStore.Proofs.Consistency

namespace BlockStore

namespace Contents

def put (contents : Contents) (id : UInt32) (p : ByteArray) : Contents :=
  fun i => if i = id then some p else contents i

def drop (contents : Contents) (id : UInt32) : Contents :=
  fun i => if i = id then none else contents i

theorem drop_of_none {contents : Contents} {id : UInt32} (h : contents id = none) :
    contents.drop id = contents := by
  funext i
  rw [drop, ite_eq_right_iff]
  rintro rfl
  exact h.symm

end Contents

namespace Stocks

variable {b p : ByteArray} {r : Roster} {contents : Contents} {id : UInt32}

/-- The ids of the chunks are those of the payloads. -/
theorem find?_isSome (h : Stocks b r.chunks contents) (id : UInt32) :
    (r.find? id).isSome ↔ (contents id).isSome := by
  constructor
  · intro hd
    obtain ⟨c, hc⟩ := Option.isSome_iff_exists.1 hd
    obtain ⟨hmem, rfl⟩ := Roster.find?_eq_some.1 hc
    obtain ⟨p, hp, -⟩ := h.carries c hmem
    exact Option.isSome_iff_exists.2 ⟨p, hp⟩
  · intro hl
    obtain ⟨p, hp⟩ := Option.isSome_iff_exists.1 hl
    obtain ⟨c, hc, hid⟩ := h.named id p hp
    exact Option.isSome_iff_exists.2 ⟨c, Roster.find?_eq_some.2 ⟨hc, hid⟩⟩

theorem find?_eq_none (h : Stocks b r.chunks contents) (hid : contents id = none) :
    r.find? id = none := by
  have hiff := h.find?_isSome id
  rw [hid] at hiff
  exact Option.not_isSome_iff_eq_none.1 fun hd => nomatch hiff.1 hd

theorem exists_chunk (h : Stocks b r.chunks contents) (hp : contents id = some p) :
    ∃ c, r.find? id = some c ∧ c ∈ r.chunks ∧ c.id = id ∧ Carries b c p := by
  obtain ⟨c, hc, hid⟩ := h.named id p hp
  obtain ⟨q, hq, hcarries⟩ := h.carries c hc
  rw [hid, hp] at hq
  obtain rfl := Option.some.inj hq
  exact ⟨c, Roster.find?_eq_some.2 ⟨hc, hid⟩, hc, hid, hcarries⟩

theorem mem_ids (h : Stocks b r.chunks contents) : id ∈ r.ids ↔ (contents id).isSome := by
  rw [← h.find?_isSome, Roster.ids, List.mem_map, Option.isSome_iff_exists]
  simp only [Roster.find?_eq_some]

end Stocks

namespace Store

open BlockStore.Action Engine Device Bytes

variable {δ : Type} [Device δ] [Lawful δ] {v : Store δ} {m : Medium} {E : Edition}
  {live committed : Contents} {shield : Nat → Prop} {id : UInt32} {p : ByteArray}

/-- The store has taken an id. -/
def skipped {δ : Type} (v : Store δ) : Store δ :=
  { v with records := { v.records with nextId := v.records.nextId + 1 } }

theorem guardWritable_ends (h : v.engine.Shows m) :
    Ends guardWritable v (fun _ v' => v = v') fun _ _ => False := by
  unfold guardWritable
  rw [ends_bind, ends_get, Engine.readOnly_eq h, if_neg Bool.false_ne_true]
  exact ends_pure.2 rfl

omit [Device δ] [Lawful δ] in
theorem takeId_ends (h : v.records.nextId.toNat + 1 < UInt32.size) :
    Ends takeId v (fun id v' => id = v.records.nextId ∧ v' = v.skipped) fun _ _ => False := by
  have hnext : (v.records.nextId.toNat + 1).toUInt32 = v.records.nextId + 1 :=
    UInt32.toNat_inj.1 (by simp)
  have htake : v.records.takeId =
      .ok (v.records.nextId, { v.records with nextId := v.records.nextId + 1 }) := by
    rw [Catalog.takeId, word32_of_lt h, ok_bind, hnext]
    rfl
  unfold takeId
  rw [ends_bind, ends_get, ends_bind, ends_checked htake, ends_bind, ends_modify]
  exact ends_pure.2 ⟨rfl, rfl⟩

omit [Device δ] [Lawful δ] in
/-- An id is taken, or the store is as it was. -/
theorem takeId_cases : Ends takeId v (fun id v' => v.records.nextId.toNat + 1 < UInt32.size ∧
      id = v.records.nextId ∧ v' = v.skipped)
    fun f v' => UInt32.size ≤ v.records.nextId.toNat + 1 ∧ f = .fault .overflow ∧ v' = v := by
  by_cases h : v.records.nextId.toNat + 1 < UInt32.size
  · exact (takeId_ends h).mono (fun _ _ ht => ⟨h, ht⟩) fun _ _ => False.elim
  · have htake : v.records.takeId = .error .overflow := by
      rw [Catalog.takeId, word32, if_neg h]
      rfl
    unfold takeId
    rw [ends_bind, ends_get, htake]
    exact ends_iff.2 ⟨Nat.le_of_not_lt h, rfl, rfl⟩

theorem nextVersion_eq {c : Catalog} (h : c.version.toNat + 1 < UInt64.size) :
    c.nextVersion = .ok (c.version + 1) := by
  have hnext : (c.version.toNat + 1).toUInt64 = c.version + 1 := UInt64.toNat_inj.1 (by simp)
  rw [Catalog.nextVersion, word64_of_lt h, ok_bind, hnext]
  rfl

theorem nextVersion_cases (c : Catalog) :
    c.version.toNat + 1 < UInt64.size ∧ c.nextVersion = .ok (c.version + 1) ∨
      UInt64.size ≤ c.version.toNat + 1 ∧ c.nextVersion = .error .overflow := by
  by_cases h : c.version.toNat + 1 < UInt64.size
  · exact .inl ⟨h, nextVersion_eq h⟩
  · refine .inr ⟨Nat.le_of_not_lt h, ?_⟩
    rw [Catalog.nextVersion, word64, if_neg h]
    rfl

omit [Lawful δ] in
/-- To write is to take an id, find a place and take note of it. -/
theorem write_of_place {Q : Chunk → Store δ → Prop} {R : Failure → Store δ → Prop}
    (hsealed : v.engine.readOnly = true → R (.error .readOnly) v)
    (hid : UInt32.size ≤ v.records.nextId.toNat + 1 → R (.fault .overflow) v)
    (hversion : v.records.nextId.toNat + 1 < UInt32.size →
      UInt64.size ≤ v.records.version.toNat + 1 → R (.fault .overflow) v.skipped)
    (hplace : v.engine.readOnly = false → v.records.nextId.toNat + 1 < UInt32.size →
      v.records.version.toNat + 1 < UInt64.size →
      Ends (place { id := v.records.nextId, version := v.records.version + 1 } p) v.engine
        (fun c e => Q c ⟨e, { v.records with
          nextId := v.records.nextId + 1
          data := v.records.data.insert c
          dirty := true }⟩)
        fun f e => R f ⟨e, v.skipped.records⟩) :
    Ends (write p) v Q R := by
  unfold write guardWritable
  rw [ends_bind, ends_bind, ends_get]
  cases hreadOnly : v.engine.readOnly with
  | true => exact ends_refuse.2 (hsealed hreadOnly)
  | false =>
    rw [if_neg Bool.false_ne_true, ends_pure]
    refine takeId_cases.bind ?_ ?_
    · rintro _ _ ⟨hlt, rfl, rfl⟩
      rw [ends_bind, ends_get, ends_bind]
      rcases nextVersion_cases v.skipped.records with ⟨hlt', heq⟩ | ⟨hle, heq⟩
      · rw [ends_checked heq, ends_bind, Volume.onEngine, ends_within]
        refine (hplace hreadOnly hlt hlt').mono (fun c e hq => ?_) fun _ _ h => h
        exact ends_bind.2 (ends_modify.2 (ends_pure.2 hq))
      · rw [heq]
        exact ends_iff.2 (hversion hlt hle)
    · rintro _ _ ⟨hle, rfl, rfl⟩
      exact hid hle

theorem lt_succ_id {a b : UInt32} (h : a < b) (hb : b.toNat + 1 < UInt32.size) : a < b + 1 := by
  rw [UInt32.lt_iff_toNat_lt] at *
  rw [UInt32.toNat_add]
  simp only [UInt32.size] at hb
  have : (1 : UInt32).toNat = 1 := rfl
  omega

theorem self_lt_succ_id {b : UInt32} (hb : b.toNat + 1 < UInt32.size) : b < b + 1 := by
  rw [UInt32.lt_iff_toNat_lt, UInt32.toNat_add]
  simp only [UInt32.size] at hb
  have : (1 : UInt32).toNat = 1 := rfl
  omega

namespace Consistent

/-- A new data chunk joins the records. -/
theorem insert {c : Chunk} {m' : Medium} {e' : Engine δ}
    (h : Consistent v m E live committed shield) (hg : Grown v E live committed shield c p m' e')
    (hid : c.id = v.records.nextId) (hnext : v.records.nextId.toNat + 1 < UInt32.size)
    (hc : c.priority = 0) :
    Consistent ⟨e', { v.records with
        nextId := v.records.nextId + 1
        data := v.records.data.insert c
        dirty := true }⟩ m' E (live.put c.id p) committed shield := by
  have hnew : ∀ d ∈ v.records.held, d.id ≠ c.id := fun d hd heq => by
    have hlt := h.ids_lt d hd
    rw [heq, hid] at hlt
    exact UInt32.lt_irrefl _ hlt
  have hdata : (v.records.data.insert c).chunks.Perm (c :: v.records.data.chunks) := by
    have hperm := v.records.data.insert_perm c
    rwa [Roster.chunks_erase_of_absent fun d hd =>
      hnew d (List.mem_append_left _ (List.mem_append_left _ hd))] at hperm
  have hheld : (c :: v.records.held).Perm ((v.records.data.insert c).chunks ++
      v.records.root.toList ++ v.records.removed) :=
    ((hdata.append_right _).append_right _).symm
  have hids := hheld.map Chunk.id
  refine ⟨hg.shows, hg.layout.perm hheld, hids.nodup_iff.1 (List.nodup_cons.2 ⟨?_, h.ids_nodup⟩),
    fun d hd => ?_, fun d hd => ?_, hg.stop_le, ?_, hg.settled, fun d hd => ?_, h.root, h.version,
    nofun⟩
  · intro hmem
    obtain ⟨d, hd, heq⟩ := List.mem_map.1 hmem
    exact hnew d hd heq
  · rcases List.mem_cons.1 (hheld.mem_iff.2 hd) with rfl | hd
    · rw [hid]
      exact self_lt_succ_id hnext
    · exact lt_succ_id (h.ids_lt d hd) hnext
  · rcases List.mem_cons.1 (hdata.mem_iff.1 hd) with rfl | hd
    · exact hc
    · exact h.plain d hd
  · refine Stocks.perm ⟨fun d hd => ?_, fun id q hq => ?_⟩ hdata.symm
    · rcases List.mem_cons.1 hd with rfl | hd
      · exact ⟨p, if_pos rfl, hg.carries⟩
      · obtain ⟨q, hq, hcarries⟩ := hg.stocks.carries d hd
        refine ⟨q, ?_, hcarries⟩
        rw [Contents.put, if_neg (hnew d (List.mem_append_left _ (List.mem_append_left _ hd)))]
        exact hq
    · by_cases hi : id = c.id
      · exact ⟨c, List.mem_cons_self, hi.symm⟩
      · rw [Contents.put, if_neg hi] at hq
        obtain ⟨d, hd, hdi⟩ := hg.stocks.named id q hq
        exact ⟨d, List.mem_cons_of_mem _ hd, hdi⟩
  · obtain ⟨a, ha, hplace⟩ := h.trails d hd
    exact ⟨a, hheld.mem_iff.1 (List.mem_cons_of_mem _ ha), hplace⟩

/-- An engine that knows the same of the same file serves as well. -/
theorem of_keeps {e' : Engine δ} (h : Consistent v m E live committed shield)
    (k : v.engine.Keeps m e') : Consistent ⟨e', v.records⟩ m E live committed shield :=
  { h with
    shows := k.1
    layout := k.2.1 ▸ h.layout
    stop_le := k.2.1 ▸ h.stop_le }

/-- A data chunk leaves the records. Its blocks stay in use. -/
theorem erase {c : Chunk} (h : Consistent v m E live committed shield)
    (hc : c ∈ v.records.data.chunks) :
    Consistent ⟨v.engine, { v.records with
        data := v.records.data.erase c.id
        removed := v.records.removed ++ [c]
        dirty := true }⟩ m E (live.drop c.id) committed shield := by
  have hheld : v.records.held.Perm ((v.records.data.erase c.id).chunks ++ v.records.root.toList ++
      (v.records.removed ++ [c])) := by
    have hperm := Roster.perm_erase hc
    have hback := List.perm_append_singleton c
      ((v.records.data.erase c.id).chunks ++ v.records.root.toList ++ v.records.removed)
    rw [List.append_assoc] at hback
    exact ((hperm.append_right _).append_right _).trans hback.symm
  refine ⟨h.shows, h.layout.perm hheld, (hheld.map _).nodup_iff.1 h.ids_nodup,
    fun d hd => h.ids_lt d (hheld.mem_iff.2 hd), fun d hd => h.plain d (Roster.mem_erase.1 hd).1,
    h.stop_le, ⟨fun d hd => ?_, fun id q hq => ?_⟩, h.settled, fun d hd => ?_, h.root, h.version, nofun⟩
  · obtain ⟨hmem, hne⟩ := Roster.mem_erase.1 hd
    obtain ⟨q, hq, hcarries⟩ := h.stocks.carries d hmem
    exact ⟨q, (if_neg hne).trans hq, hcarries⟩
  · rw [Contents.drop] at hq
    split at hq
    · exact nomatch hq
    · next hne =>
      obtain ⟨d, hd, rfl⟩ := h.stocks.named id q hq
      exact ⟨d, Roster.mem_erase.2 ⟨hd, hne⟩, rfl⟩
  · obtain ⟨a, ha, hplace⟩ := h.trails d hd
    exact ⟨a, hheld.mem_iff.1 ha, hplace⟩

end Consistent

/-- A payload is stored under the next id. -/
theorem write_ends (h : Consistent v m E live committed bare)
    (hid : v.records.nextId.toNat + 1 < UInt32.size)
    (hversion : v.records.version.toNat + 1 < UInt64.size) (hp : p.size < UInt32.size)
    (hroom : (v.engine.occupancy.ceiling v.engine.heldBack + Chunk.blocksFor p.size) * blockSize <
      Lawful.room δ) :
    Ends (write p) v (fun c v' => c.id = v.records.nextId ∧ v'.engine.mode = v.engine.mode ∧
      v'.records.nextId = v.records.nextId + 1 ∧ v'.records.version = v.records.version ∧
      ∃ m', Consistent v' m' E (live.put c.id p) committed bare)
      (CutOff committed live) := by
  have hwritable := readOnly_eq h.shows
  refine write_of_place (fun hno => by rw [hwritable] at hno; cases hno) (fun hle => by omega)
    (fun _ hle => by omega) fun _ _ _ => ?_
  refine (place_ends h.shows h.layout.blockSize hp hroom).mono ?_ ?_
  · rintro c e' ⟨⟨block, next, rfl⟩, hfresh, hputs⟩
    have hg := h.grow hfresh (fun _ hb => hb.elim) hputs
    exact ⟨rfl, hg.mode, rfl, rfl, _, h.insert hg rfl hid rfl⟩
  · rintro f e' ⟨hf, hs⟩
    exact ⟨hf, _, hs, (h.settled.safe _ _)⟩

/-- A chunk that the records know is read as what it carries. -/
theorem read_ends_of_carries {c : Chunk} (h : v.engine.Shows m) (hfind : v.records.find? id = some c)
    (hc : Carries m.content c p) :
    Ends (read id) v (fun q v' => q = p ∧ v'.records = v.records ∧ Keeps v.engine m v'.engine)
      fun _ _ => False := by
  unfold read
  rw [ends_bind, ends_get, hfind]
  dsimp only
  rw [ends_bind, Volume.onEngine, ends_within]
  refine (load_ends h hc.holds hc.fits rfl rfl rfl).mono ?_ fun _ _ => False.elim
  rintro _ e' ⟨rfl, k⟩
  exact ends_pure.2 ⟨Frame.payload_framed hc.fits, rfl, k⟩

theorem read_ends_of_stocks (h : v.engine.Shows m)
    (hst : Stocks m.content v.records.data.chunks live) (hp : live id = some p) :
    Ends (read id) v (fun q v' => q = p ∧ v'.records = v.records ∧ Keeps v.engine m v'.engine)
      fun _ _ => False := by
  obtain ⟨c, hfind, -, -, hcarries⟩ := hst.exists_chunk hp
  exact read_ends_of_carries h (by rw [Catalog.find?, hfind, Option.some_or]) hcarries

omit [Lawful δ] in
/-- An id that no record stands for is not found. -/
theorem read_ends_none (hfind : v.records.find? id = none) :
    Ends (read id) v (fun _ _ => False) fun f v' => f = .error (.chunkNotFound id) ∧ v = v' := by
  unfold read
  rw [ends_bind, ends_get, hfind]
  exact ends_refuse.2 ⟨rfl, rfl⟩

/-- A live id is removed. -/
theorem remove_ends (h : Consistent v m E live committed shield) (hp : live id = some p) :
    Ends (remove id) v (fun _ v' => v'.engine = v.engine ∧ v'.records.nextId = v.records.nextId ∧
      v'.records.version = v.records.version ∧ Consistent v' m E (live.drop id) committed shield)
      fun _ _ => False := by
  obtain ⟨c, hfind, hc, rfl, -⟩ := h.stocks.exists_chunk hp
  unfold remove
  refine (guardWritable_ends h.shows).bind ?_ fun _ _ => False.elim
  rintro _ _ rfl
  rw [ends_bind, ends_get, hfind]
  exact ends_modify.2 ⟨rfl, rfl, rfl, h.erase hc⟩

theorem remove_ends_not_found (h : Consistent v m E live committed shield) (hid : live id = none) :
    Ends (remove id) v (fun _ _ => False) fun f v' => f = .error (.chunkNotFound id) ∧ v = v' := by
  unfold remove
  refine (guardWritable_ends h.shows).bind ?_ fun _ _ => False.elim
  rintro _ _ rfl
  rw [ends_bind, ends_get, h.stocks.find?_eq_none hid]
  exact ends_refuse.2 ⟨rfl, rfl⟩

end Store

end BlockStore
