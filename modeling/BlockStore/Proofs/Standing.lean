import BlockStore.Proofs.Recovery
import BlockStore.Proofs.Service

namespace BlockStore

open BlockStore.Action Bytes Device Engine

/-- A frame is checked against the id, the place and the length of a record. -/
theorem Frame.verify_congr {buf : ByteArray} {c d : Chunk} {head : Head} (hid : d.id = c.id)
    (hlen : d.len = c.len) (hblock : d.block = c.block) (h : verify buf c = .ok head) :
    verify buf d = .ok head := by
  have hhead (x : Head) : x.isOf d = x.isOf c := by rw [Head.isOf, Head.isOf, hid, hlen, hblock]
  have hfoot (x : Foot) : x.isOf d = x.isOf c := by rw [Foot.isOf, Foot.isOf, hid, hlen, hblock]
  unfold verify at h ⊢
  obtain ⟨found, hfound, h⟩ := bind_eq_ok h
  obtain ⟨foot, hread, h⟩ := bind_eq_ok h
  rw [hfound, ok_bind, hread, ok_bind, hhead, hfoot]
  by_cases hf : found.isOf c
  · rw [if_pos hf] at h ⊢
    dsimp only at h ⊢
    by_cases hg : foot.isOf c ∧ foot.version = found.version
    · rw [if_pos hg] at h ⊢
      exact h
    · rw [if_neg hg] at h
      obtain ⟨_, -, h⟩ := bind_eq_ok h
      cases h
  · rw [if_neg hf] at h
    obtain ⟨_, -, h⟩ := bind_eq_ok h
    cases h

theorem Seals.congr {b p : ByteArray} {c d : Chunk} (h : Seals b c p) (hid : d.id = c.id)
    (hlen : d.len = c.len) (hblock : d.block = c.block) : Seals b d p := by
  obtain ⟨buf, head, hsize, hholds, hverify, hpayload⟩ := h
  refine ⟨buf, head, ?_, ?_, Frame.verify_congr hid hlen hblock hverify, hpayload⟩
  · rw [hsize, Chunk.byteLen, Chunk.byteLen, hlen]
  · rw [Chunk.first, hblock]
    exact hholds

namespace Edition

variable {E : Edition} {D : Inventory} {b b' : ByteArray} {c moved : Chunk}

/-- A reader of the file finds the superblock of `E` and, where it points to, the image. -/
structure Stands (E : Edition) (b : ByteArray) : Prop where
  blank : E.root = none → E = .blank
  plain : ∀ c ∈ E.chunks, c.priority = 0
  ascending : E.chunks.Pairwise (·.id < ·.id)
  size_lt : E.imageBytes.size < UInt32.size
  names : E.superblock.Names b
  root : ∀ root, E.root = some root → Seals b root E.imageBytes

/-- The chunks of the commit are among those of the records, perhaps in other places, or on loose
blocks. -/
def Trails (E : Edition) (D : Inventory) : Prop :=
  ∀ d ∈ E.held, (∃ c ∈ D.chunks, c.id = d.id ∧ c.len = d.len) ∨
    ∃ c ∈ D.loose, c.first = d.first ∧ c.len = d.len

theorem Stands.kept (h : E.Stands b) (hroot : ∀ root, E.root = some root → root.Kept b b')
    (hsuper : Superblock.Kept b b') : E.Stands b' :=
  ⟨h.blank, h.plain, h.ascending, h.size_lt, hsuper _ h.names,
    fun root hr => (h.root root hr).kept (hroot root hr)⟩

theorem Trails.loosen {loose : List Chunk} (h : E.Trails D) (hsub : D.loose ⊆ loose) :
    E.Trails { D with loose } := fun d hd => (h d hd).imp id fun hc => by
  obtain ⟨c, hc, hplace⟩ := hc
  exact ⟨c, hsub hc, hplace⟩

/-- The records follow a chunk that moves. -/
theorem Trails.relocate (h : E.Trails D) (hids : (D.chunks.map Chunk.id).Nodup) (hc : c ∈ D.chunks)
    (hid : moved.id = c.id) (hlen : moved.len = c.len) : E.Trails (D.relocate moved) := by
  refine fun d hd => (h d hd).imp ?_ id
  rintro ⟨a, ha, hida, hlena⟩
  have hsame : (moved.follow a).id = a.id ∧ (moved.follow a).len = a.len := by
    unfold Chunk.follow
    split
    · next heq =>
      obtain rfl : a = c := List.inj_on_of_nodup_map hids ha hc (heq.trans hid)
      exact ⟨hid, hlen⟩
    · exact ⟨rfl, rfl⟩
  refine ⟨moved.follow a, ?_, hsame.1.trans hida, hsame.2.trans hlena⟩
  rw [Inventory.chunks_relocate]
  exact List.mem_map_of_mem ha

theorem Trails.setRoot (h : E.Trails D) (hc : c ∈ D.chunks) :
    Edition.Trails { E with root := some c } D := by
  intro d hd
  rcases mem_held.1 hd with hd | hd
  · exact h d (mem_held.2 (.inl hd))
  · obtain rfl := Option.some.inj hd
    exact .inl ⟨c, hc, rfl, rfl⟩

variable {δ : Type} [Device δ] [Fallible δ] {e : Engine δ}

/-- Whoever reads the file as a store refers to no other chunks than those of the commit. -/
theorem Stands.recover_endures (h : E.Stands b) (he : e.Has b) :
    Ends Store.recover e (fun records _ => ∀ c ∈ records.chunks, ∃ d ∈ E.held,
      d.id = c.id ∧ d.block = c.block ∧ d.len = c.len) Any := by
  have hsize := h.names.headerBytes_le
  have hhead : 0 < headerBytes := by decide
  unfold Store.recover
  rw [ends_bind, ends_get, size_of_has he, if_neg (by omega), if_neg (by omega), ends_bind]
  refine (read_endures he (by omega)).mono ?_ fun _ _ _ => trivial
  rintro _ e₁ ⟨rfl, h₁⟩
  rw [ends_bind]
  refine (ends_except (congrArg (Except.mapError _) h.names.read_slice)).2 ?_
  split
  · next hnames =>
    cases hr : E.root with
    | none =>
      rw [Edition.superblock, hr] at hnames
      exact absurd hnames (show ¬({} : Superblock).namesRoot = true by decide)
    | some root =>
      have hsb : E.superblock = .naming E.version root := by rw [Edition.superblock, hr]
      rw [hsb, ends_bind]
      have hseals := h.root root hr
      refine (load_endures h₁.has (hseals.congr (d := {
          id := root.id, block := root.block, len := root.len, version := E.version })
        rfl rfl rfl)).mono ?_ fun _ _ _ => trivial
      rintro ⟨head, buf⟩ e₂ ⟨-, -, -, hpayload, -⟩
      have himage := read_image h.plain h.size_lt
      dsimp only at hpayload ⊢
      rw [hpayload, ends_bind]
      refine (ends_except (congrArg (Except.mapError _) himage)).2 ?_
      rw [if_neg (fun hne => hne rfl), ends_bind]
      refine ends_any fun _ e₃ => ?_
      rw [ends_bind]
      refine ends_any fun _ e₄ => ends_pure.2 fun c hc => ?_
      rcases Catalog.mem_chunks.1 hc with hc | hc
      · have hdata := Roster.chunks_ofList h.ascending
        exact ⟨c, mem_held.2 (.inl (hdata ▸ hc)), rfl, rfl, rfl⟩
      · obtain rfl := Option.some.inj hc
        exact ⟨root, mem_held.2 (.inr hr), rfl, rfl, rfl⟩
  · exact ends_iff.2 (List.forall_mem_nil _)

theorem Stands.of_openOn {d : δ} {settings : Settings} {u : Store δ} (h : E.Stands b)
    (hd : Fallible.Has d b) (hopen : Store.openOn settings d = .ok u) :
    ∀ c ∈ u.records.chunks, ∃ d ∈ E.held, d.id = c.id ∧ d.block = c.block ∧ d.len = c.len := by
  unfold Store.openOn at hopen
  split at hopen
  · cases hopen
  · split at hopen
    · cases hopen
    · next engine hcreate =>
      have he : engine.Has b := by
        unfold Engine.create at hcreate
        obtain ⟨pool, -, hcreate⟩ := bind_eq_ok hcreate
        obtain rfl := Except.ok.inj hcreate
        exact hd
      split at hopen
      · next records e hrun =>
        obtain rfl := Except.ok.inj hopen
        exact (h.recover_endures he).ok _ _ hrun
      · cases hopen

end Edition

end BlockStore
