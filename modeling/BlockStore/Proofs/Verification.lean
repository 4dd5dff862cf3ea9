import BlockStore.Proofs.Frame
import BlockStore.Proofs.Layout

namespace BlockStore.Frame

open Bytes

variable {buf : ByteArray} {c d : Chunk} {head : Head} {foot : Foot}

/-- The buffer has a sound head and a sound foot that agree, are those of `c`, and leave room
for the payload. -/
structure Passes (buf : ByteArray) (c : Chunk) (head : Head) (foot : Foot) : Prop where
  readHead : readHead buf = .ok head
  readFoot : readFoot buf = .ok foot
  named : head.id = c.id ∧ head.len = c.len ∧ head.block = c.block
  agree : foot.id = head.id ∧ foot.len = head.len ∧ foot.block = head.block ∧
    foot.version = head.version
  fits : Chunk.headSize + head.payload.toNat + Chunk.footSize ≤ buf.size

theorem Head.isOf_iff : head.isOf c ↔ head.id = c.id ∧ head.len = c.len ∧ head.block = c.block := by
  rw [Head.isOf, decide_eq_true_iff]

theorem Foot.isOf_iff : foot.isOf c ↔ foot.id = c.id ∧ foot.len = c.len ∧ foot.block = c.block := by
  rw [Foot.isOf, decide_eq_true_iff]

theorem verify_of_reads (hr : readHead buf = .ok head) (hf : readFoot buf = .ok foot) :
    verify buf c =
      if head.isOf c then
        if foot.isOf c ∧ foot.version = head.version then
          (liftM (payloadSize buf) : Except Failure UInt32) >>= fun _ => .ok head
        else (liftM c.describe : Except Failure String) >>= fun _ =>
          .error (.error (.corruption (.footMismatch foot.id foot.block foot.len c)))
      else (liftM c.describe : Except Failure String) >>= fun _ =>
        .error (.error (.corruption (.headMismatch head.id head.block head.len c))) := by
  unfold verify
  rw [hr, hf]
  by_cases hhead : head.isOf c
  · rw [if_pos hhead]
    by_cases hfoot : foot.isOf c ∧ foot.version = head.version
    · rw [if_pos hfoot]
      change (if _ then _ else _ : Except Failure Head) = _
      rw [if_pos hhead]
      change (if _ then _ else _ : Except Failure Head) = _
      rw [if_pos hfoot]
      cases payloadSize buf <;> rfl
    · rw [if_neg hfoot]
      change (if _ then _ else _ : Except Failure Head) = _
      rw [if_pos hhead]
      change (if _ then _ else _ : Except Failure Head) = _
      rw [if_neg hfoot]
      cases c.describe <;> rfl
  · rw [if_neg hhead]
    change (if _ then _ else _ : Except Failure Head) = _
    rw [if_neg hhead]
    cases c.describe <;> rfl

theorem payloadSize_eq_ok (hr : readHead buf = .ok head) : payloadSize buf = .ok head.payload ↔
    Chunk.headSize + head.payload.toNat + Chunk.footSize ≤ buf.size := by
  rw [payloadSize, hr, ok_bind]
  split
  · next hlt =>
    refine ⟨fun h => ?_, fun hle => absurd hlt (Nat.not_lt.2 hle)⟩
    cases h
  · next hle => exact ⟨fun _ => Nat.le_of_not_lt hle, fun _ => rfl⟩

theorem Passes.payloadSize (h : Passes buf c head foot) : payloadSize buf = .ok head.payload :=
  (payloadSize_eq_ok h.readHead).2 h.fits

theorem passes_of_verify (h : verify buf c = .ok head) : ∃ foot, Passes buf c head foot := by
  have hreads := h
  unfold verify at hreads
  obtain ⟨found, hr, hreads⟩ := bind_eq_ok hreads
  obtain ⟨foot, hf, -⟩ := bind_eq_ok hreads
  have hr := liftM_damage_eq_ok hr
  have hf := liftM_damage_eq_ok hf
  rw [verify_of_reads hr hf] at h
  split at h
  · next hhead =>
    split at h
    · next hfoot =>
      obtain ⟨n, hn, h⟩ := bind_eq_ok h
      obtain rfl := Except.ok.inj h
      obtain ⟨_, hr', rfl, hle⟩ := of_payloadSize (liftM_damage_eq_ok hn)
      obtain rfl := Except.ok.inj (hr.symm.trans hr')
      obtain ⟨hid, hlen, hblock⟩ := Head.isOf_iff.1 hhead
      obtain ⟨hid', hlen', hblock'⟩ := Foot.isOf_iff.1 hfoot.1
      exact ⟨foot, hr, hf, ⟨hid, hlen, hblock⟩, ⟨hid'.trans hid.symm, hlen'.trans hlen.symm,
        hblock'.trans hblock.symm, hfoot.2⟩, hle⟩
    · obtain ⟨_, -, h⟩ := bind_eq_ok h
      exact nomatch h
  · obtain ⟨_, -, h⟩ := bind_eq_ok h
    exact nomatch h

/-- A buffer that does not pass is corrupt: nothing else can come of checking it. -/
theorem verify_total (buf : ByteArray) (h : c.saved → c.after < UInt64.size) :
    (∃ damage, verify buf c = .error (.error (.corruption damage))) ∨
      ∃ head foot, verify buf c = .ok head ∧ Passes buf c head foot := by
  cases hv : verify buf c with
  | ok head =>
    obtain ⟨foot, hp⟩ := passes_of_verify hv
    exact .inr ⟨head, foot, rfl, hp⟩
  | error f =>
    refine .inl ?_
    cases hr : readHead buf with
    | error damage =>
      rw [verify, hr] at hv
      exact ⟨damage, hv.symm⟩
    | ok head =>
    cases hf : readFoot buf with
    | error damage =>
      rw [verify, hr, hf] at hv
      exact ⟨damage, hv.symm⟩
    | ok foot =>
    rw [verify_of_reads hr hf, Chunk.describe_eq h] at hv
    split at hv
    · split at hv
      · rw [payloadSize, hr, ok_bind] at hv
        split at hv
        · exact ⟨_, hv.symm⟩
        · cases hv
      · exact ⟨_, hv.symm⟩
    · exact ⟨_, hv.symm⟩

/-- A frame passes for the records that agree with its own on where it lies and whose it is,
and is read back as it was written. -/
theorem verify_wrap_iff {n : UInt32} {mid : ByteArray} (h : n.toNat ≤ mid.size) :
    verify (wrap c n mid) d = .ok head ↔
      (d.id = c.id ∧ d.len = c.len ∧ d.block = c.block) ∧ head = .ofChunk c n := by
  constructor
  · intro hv
    obtain ⟨foot, hp⟩ := passes_of_verify hv
    obtain rfl := Except.ok.inj (hp.readHead.symm.trans (readHead_wrap c n mid))
    obtain ⟨hid, hlen, hblock⟩ := hp.named
    exact ⟨⟨hid.symm, hlen.symm, hblock.symm⟩, rfl⟩
  · rintro ⟨⟨hid, hlen, hblock⟩, rfl⟩
    exact verify_wrap h hid hlen hblock

/-- Checking a frame is exact, and safe on any bytes. -/
theorem verify_exact :
    (∀ (c : Chunk) (n : UInt32) (buf : ByteArray),
      Chunk.headSize + n.toNat + Chunk.footSize ≤ buf.size →
        ∃ out, write buf c n = .ok out ∧ out.size = buf.size ∧ middle out = middle buf ∧
          ∀ (d : Chunk) (head : Head), verify out d = .ok head ↔
            (d.id = c.id ∧ d.len = c.len ∧ d.block = c.block) ∧
              head = ⟨c.id, c.len, c.block, c.version, c.next, n⟩) ∧
    ∀ (buf : ByteArray) (d : Chunk), (d.saved → d.block.toNat + d.len.toNat < UInt64.size) →
      (∃ damage, verify buf d = .error (.error (.corruption damage))) ∨
        ∃ head foot, verify buf d = .ok head ∧ Passes buf d head foot := by
  refine ⟨fun c n buf hle => ?_, fun buf d h => verify_total buf h⟩
  have hmid : n.toNat ≤ (middle buf).size := by
    rw [middle, ByteArray.size_extract]
    omega
  have hwrite : write buf c n = .ok (wrap c n (middle buf)) := write_eq (by omega) c n
  exact ⟨_, hwrite, size_of_write hwrite, middle_wrap .., fun d head => verify_wrap_iff hmid⟩

theorem verify_exact_blank :
    let c : Chunk := { id := 7, block := 2, len := 1, version := 3, next := 9 }
    Chunk.headSize + (5 : UInt32).toNat + Chunk.footSize ≤ (zeros 100).size ∧
      (c.saved → c.block.toNat + c.len.toNat < UInt64.size) ∧
      ∃ out, write (zeros 100) c 5 = .ok out ∧ out.size = 100 ∧
        verify out c = .ok ⟨7, 1, 2, 3, 9, 5⟩ := by
  intro c
  have hle : Chunk.headSize + (5 : UInt32).toNat + Chunk.footSize ≤ (zeros 100).size := by
    rw [size_zeros]
    decide
  have hend : c.saved → c.block.toNat + c.len.toNat < UInt64.size := by decide
  obtain ⟨out, hout, hsize, -, hverify⟩ := verify_exact.1 c 5 (zeros 100) hle
  have hv := (hverify c ⟨7, 1, 2, 3, 9, 5⟩).2 ⟨⟨rfl, rfl, rfl⟩, rfl⟩
  rcases verify_exact.2 out c hend with ⟨damage, hd⟩ | ⟨head, foot, hok, -⟩
  · exact nomatch hd.symm.trans hv
  · exact ⟨hle, hend, out, hout, hsize.trans (size_zeros 100), hv⟩

end BlockStore.Frame
