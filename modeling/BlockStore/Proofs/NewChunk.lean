import BlockStore.Device.Memory
import BlockStore.Proofs.Effects
import BlockStore.Proofs.FirstFit
import BlockStore.Proofs.Service

namespace BlockStore.Engine

open BlockStore.Action

variable {δ : Type} [Device δ] {e : Engine δ} {c placed : Chunk} {buf framed : ByteArray}

/-- Why a chunk gets no place. -/
inductive Declined (e : Engine δ) (c : Chunk) (buf : ByteArray) : Failure → Prop
  | readOnly (h : e.readOnly = true) : Declined e c buf (.error .readOnly)
  | mismatch (h : buf.size ≠ c.byteLen ∨ c.byteLen = 0) :
      Declined e c buf (.error (.breach (.bufferMismatch buf.size c.len c.id)))
  | damaged {d : Damage} (h : Frame.payloadSize buf = .error d) :
      Declined e c buf (.error (.corruption d))

/-- From `e` to `e'` a chunk has got a place and its bytes their frame. -/
structure Accommodated (e : Engine δ) (c : Chunk) (buf : ByteArray) (placed : Chunk)
    (framed : ByteArray) (e' : Engine δ) : Prop where
  record : ∃ block next, placed = { c with block, next }
  vacant : e.occupancy.Vacant placed.first placed.len.toNat
  apart : ∀ high, e.reserved.high = some high →
    Disjoint (Set.Ico placed.first placed.after) (Set.Ico e.reserved.low high)
  taken : ∃ wasteful, e' = e.taking placed.first placed.len.toNat wasteful
  used : ∀ b, b ∈ e'.occupancy.used ↔ b ∈ e.occupancy.used ∨ placed.Covers b
  verified : ∃ old head, Frame.readHead buf = .ok old ∧ Frame.verify framed placed = .ok head ∧
    head.payload = old.payload
  size_eq : framed.size = buf.size
  middle_eq : Frame.middle framed = Frame.middle buf

/-- The interval that is held back covers the reserved one. -/
theorem outside_reserved {start n high : Nat} (hn : 0 < n) (hh : e.reserved.high = some high)
    (h : e.occupancy.Outside e.heldBack start n) :
    Disjoint (Set.Ico start (start + n)) (Set.Ico e.reserved.low high) := by
  rcases Nat.lt_or_ge e.reserved.low high with hlt | hge
  · have hreserved : e.reserved = .between e.reserved.low high := by rw [Reserved.between, ← hh]
    rw [heldBack_between hreserved (Nat.zero_lt_of_lt hlt)] at h
    exact (Occupancy.outside_between_iff hn hlt).1 h
  · rw [Set.Ico_eq_empty_of_le hge]
    exact Set.disjoint_empty _

theorem Settled.accommodated (h : Settled e c buf placed framed) (wasteful : List Bool) :
    Accommodated e c buf placed framed (e.taking placed.first c.len.toNat wasteful) := by
  obtain ⟨⟨block, next, rfl⟩, hlen, -, ⟨n, hpayload, hwrite⟩, -, -, hvacant, hout⟩ := h
  obtain ⟨old, hread, rfl, hle⟩ := Frame.of_payloadSize hpayload
  obtain ⟨out, hsize, hwrite', -, hverify, -⟩ := Frame.reframe hpayload { c with block, next }
  obtain rfl := Except.ok.inj (hwrite.symm.trans hwrite')
  rw [Frame.write_eq (by omega)] at hwrite
  exact {
    record := ⟨block, next, rfl⟩
    vacant := hvacant
    apart high hh := by
      rw [Chunk.after_eq]
      exact outside_reserved hlen hh hout
    taken := ⟨wasteful, rfl⟩
    used b := Bitmap.mem_insertRange
    verified := ⟨old, _, hread, hverify, rfl⟩
    size_eq := hsize
    middle_eq := by rw [← Except.ok.inj hwrite, Frame.middle_wrap] }

/-- A chunk gets no place for a reason that was there before, and then nothing has changed. -/
theorem allocateFor_declines (c : Chunk) (buf : ByteArray) (hb : e.occupancy.blockSize = blockSize)
    (hroom : max e.appendFrom (e.reserved.high.getD 0) ≤ 2 ^ 51) :
    Ends (allocateFor c buf) e (fun _ _ => True) fun f e' => e' = e ∧ Declined e c buf f := by
  by_cases hro : e.readOnly = true
  · unfold allocateFor
    rw [ends_bind, ends_get, if_pos hro, ends_bind]
    exact ends_refuse.2 ⟨rfl, .readOnly hro⟩
  by_cases hsize : buf.size ≠ c.byteLen ∨ c.byteLen = 0
  · unfold allocateFor
    rw [ends_bind, ends_get, if_neg hro, if_pos hsize, ends_bind]
    exact ends_refuse.2 ⟨rfl, .mismatch hsize⟩
  cases hpayload : Frame.payloadSize buf with
  | error d =>
    unfold allocateFor
    rw [ends_bind, ends_get, if_neg hro, if_neg hsize, hpayload]
    exact ends_iff.2 ⟨rfl, .damaged hpayload⟩
  | ok n =>
    obtain ⟨hsize, hn⟩ := not_or.1 hsize
    have hbytes : c.byteLen = c.len.toNat * blockSize := rfl
    have hlen := c.len.toNat_lt
    have hceil := ceiling_heldBack_le e
    rw [hbytes, mul_blockSize] at hn
    obtain ⟨placed, start, wasteful, out, -, -, -, -, -, hrun⟩ :=
      allocateFor_run (eq_false_of_ne_true hro) hb (Classical.not_not.1 hsize) (by omega) hpayload (by
        simp only [mul_blockSize, UInt64.size] at *
        omega)
    exact .of_run hrun trivial

/-- A chunk gets blocks that were free, apart from the reserved ones, and a frame that names them;
or the engine, the record and the bytes are left as they were. The check that follows an allocation
never fails. -/
theorem allocateFor_accommodates (c : Chunk) (buf : ByteArray) (hb : e.occupancy.blockSize = blockSize)
    (hroom : max e.appendFrom (e.reserved.high.getD 0) ≤ 2 ^ 51) :
    Ends (allocateFor c buf) e (fun a e' => Accommodated e c buf a.1 a.2 e')
      fun f e' => e' = e ∧ Declined e c buf f := by
  refine ((allocateFor_taking hb).and (allocateFor_declines c buf hb hroom)).mono
    ?_ fun _ _ hf => hf.2
  rintro ⟨placed, framed⟩ _ ⟨⟨hsettled, wasteful, rfl⟩, -⟩
  exact hsettled.accommodated wasteful

/-- Blocks 0, 1 and 3 in use, blocks 4 and 5 held back. -/
def confined : Engine Device.Memory where
  device := {}
  settings := {}
  occupancy := ⟨headerBlocks, blockSize, ⟨#[0b1011]⟩, []⟩
  reserved := .between 4 6
  reuse := true
  pool := ⟨4, []⟩

/-- A chunk of two blocks that has no place. -/
def homeless : Chunk := { id := 7, len := 2 }

/-- Three bytes in its frame. -/
def homelessBytes : ByteArray := Frame.framed homeless (Bytes.ofList [1, 2, 3])

theorem allocateFor_accommodates_confined : ∃ placed framed e',
    allocateFor homeless homelessBytes confined = (.ok (placed, framed), e') ∧
      Accommodated confined homeless homelessBytes placed framed e' := by
  have hf : Frame.Fits homeless (Bytes.ofList [1, 2, 3]) := by
    constructor <;> decide
  have hends := allocateFor_accommodates (e := confined) homeless homelessBytes rfl
    (by decide +kernel)
  have hgranted (f : Failure) (e' : Engine Device.Memory)
      (h : e' = confined ∧ Declined confined homeless homelessBytes f) : False := by
    obtain ⟨-, hdeclined⟩ := h
    cases hdeclined with
    | readOnly h => exact nomatch h
    | mismatch h => exact h.elim (absurd (Frame.size_framed hf)) (by decide)
    | damaged h => exact nomatch (Frame.payloadSize_framed hf).symm.trans h
  obtain ⟨⟨placed, framed⟩, e', hrun, h⟩ := (hends.mono (fun _ _ h => h) hgranted).total
  exact ⟨placed, framed, e', hrun, h⟩

end BlockStore.Engine
