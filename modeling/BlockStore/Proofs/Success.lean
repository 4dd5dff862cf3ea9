import BlockStore.Proofs.Allocation
import BlockStore.Proofs.Placement
import BlockStore.Proofs.Verification

namespace BlockStore

open BlockStore.Action Bytes

namespace Device

/-- A lawful device whose bytes can be told, and that never goes beyond its size: a write that
succeeds has been done, wherever it goes. -/
class Faithful (δ : Type) [Device δ] extends Lawful δ where
  bytes : δ → ByteArray
  bytes_eq {d : δ} {m : Medium} : Shows d m → bytes d = m.content
  write_done {d : δ} {m : Medium} {pos : Nat} {data : ByteArray} : Shows d m → 0 < data.size →
    Ends (Device.write pos data) d (fun _ t => Shows t (m.change (.write pos data))) Any

instance : Faithful Memory where
  bytes := Memory.bytes
  bytes_eq h := h.2.1
  write_done {d m pos data} h _ := by
    by_cases hroom : pos + data.size < Bytes.limit
    · exact (Memory.write_ends h hroom).mono (fun _ _ => id) fun _ _ => False.elim
    · change Ends (Memory.write pos data) d _ _
      unfold Memory.write
      rw [ends_bind, ends_get, h.1, if_neg Bool.false_ne_true, ends_bind]
      refine ends_of_checked fun stop hstop => ?_
      obtain ⟨-, rfl⟩ := word64_eq_ok.1 hstop
      rw [ends_bind]
      exact ends_of_checked fun _ hlimit => absurd (room_eq_ok.1 hlimit) hroom

end Device

namespace Occupancy

variable {o : Occupancy} {r : Reserved} {n start : Nat}

/-- A search that succeeds starts no higher than an allocation may. -/
theorem le_ceiling_of_firstFit {cursor skipped : Nat} {fit : Fit} (hc : cursor ≤ o.ceiling r)
    (h : o.firstFit n r cursor skipped = .ok fit) : fit.start ≤ o.ceiling r := by
  have hceil : o.stop ≤ o.ceiling r := Nat.le_max_left _ _
  fun_induction firstFit o n r cursor skipped with
  | case1 => cases h
  | case2 cursor skipped start hover stop? stop hs ih =>
    have := lt_stop (o := o) (Bitmap.next?_eq_some (Option.filter_eq_some_iff.1 hs).1).2.1
    exact ih (by omega) h
  | case3 => cases h
  | case4 cursor skipped start hover stop? hs hm =>
    obtain rfl := Except.ok.inj h
    have := nextGap_le o cursor
    dsimp only
    omega
  | case5 cursor skipped start hover stop? hs hm high hh ih =>
    exact ih (by rw [ceiling, hh]; exact Nat.le_max_right _ _) h
  | case6 cursor skipped start hover stop? hs hm hh =>
    obtain rfl := Except.ok.inj h
    exact hceil

theorem le_ceiling_of_preview (h : o.preview n r = .ok start) : start ≤ o.ceiling r := by
  unfold preview at h
  cases hfit : o.firstFit n r 0 0 with
  | error f =>
    rw [hfit] at h
    cases h
  | ok fit =>
    rw [hfit] at h
    obtain rfl := Except.ok.inj h
    exact le_ceiling_of_firstFit (Nat.zero_le _) hfit

end Occupancy

namespace Engine

open Device

variable {δ : Type} [Device δ] [Faithful δ] {e : Engine δ} {m : Medium} {c : Chunk}
  {p data : ByteArray} {r : Reserved} {pos n : Nat}

theorem write_done (h : e.Shows m) (hd : 0 < data.size) :
    Ends (write pos data) e (fun _ => Keeps e (m.change (.write pos data))) Any := by
  unfold write onDevice
  rw [ends_bind, ends_within]
  exact (Faithful.write_done h hd).mono (fun _ t ht => ends_modify.2 ⟨ht, rfl, rfl⟩) fun _ _ => id

theorem takes_taking (h : e.Shows m) (start n : Nat) (wasteful : List Bool) :
    Takes e start n m (e.taking start n wasteful) := ⟨h, rfl, wasteful, rfl⟩

/-- What was found room for is in place once its frame has been written. -/
theorem Room.fresh {e' : Engine δ} (h : Room e r c.first c.len.toNat) (hf : Frame.Fits c p)
    (hn : 0 < c.len.toNat)
    (hs : e'.Shows (m.change (.write (c.first * blockSize) (Frame.framed c p)))) :
    Fresh e r c p := by
  refine ⟨hf, hn, h.vacant, h.outside, Occupancy.le_ceiling_of_preview h.preview, ?_⟩
  have hsize := Lawful.size_lt hs
  rw [Medium.content_change, Change.size_apply_write, Frame.size_framed hf, Chunk.byteLen,
    ← Nat.add_mul, ← Chunk.after_eq] at hsize
  omega

theorem writeChunk_done (h : e.Shows m) (hd : 0 < data.size) : Ends (writeChunk c data) e
    (fun _ => Keeps e (m.change (.write (c.first * blockSize) data))) Any :=
  writeChunk_of_write (write_done h hd)

/-- A payload in its frame gets a place and is written there. -/
theorem settle_done (h : e.Shows m) (hb : e.occupancy.blockSize = blockSize)
    (hf : Frame.Fits c p) :
    Ends (do
      let (placed, framed) ← allocateFor c (Frame.framed c p)
      writeChunk placed framed
      return placed) e (Places e c p m) Any := by
  rw [ends_bind]
  refine (allocateFor_taking hb).mono ?_ fun _ _ hf => hf
  rintro ⟨placed, framed⟩ _ ⟨⟨hrecord, hn, -, ⟨payload, hpayload, hframed⟩, hroom⟩, wasteful, rfl⟩
  dsimp only at hrecord hframed hroom ⊢
  have hlen : placed.len = c.len := by
    obtain ⟨block, next, rfl⟩ := hrecord
    rfl
  have hfits : Frame.Fits placed p := by
    obtain ⟨block, next, rfl⟩ := hrecord
    exact hf
  have hw : Frame.write (Frame.framed c p) placed p.size.toUInt32 = .ok (Frame.framed placed p) :=
    Frame.write_framed hlen
  have hpayload := Except.ok.inj ((Frame.payloadSize_framed hf).symm.trans hpayload)
  rw [← hpayload, hw] at hframed
  obtain rfl := Except.ok.inj hframed
  rw [← hlen] at hn hroom ⊢
  have htakes := takes_taking h placed.first placed.len.toNat wasteful
  rw [ends_bind]
  refine (writeChunk_done htakes.1 (Frame.size_wrap_pos ..)).mono (fun _ e₂ k₂ => ends_pure.2 ?_) fun _ _ hf => hf
  exact ⟨hrecord, hroom.fresh hfits hn k₂.1, htakes.keeps k₂⟩

/-- A payload that is placed is below the limit of the format. -/
theorem place_done (h : e.Shows m) (hb : e.occupancy.blockSize = blockSize) :
    Ends (place c p) e (fun placed e' => p.size < UInt32.size ∧
      Places e (c.holding p) p m placed e') Any := by
  by_cases hp : p.size < UInt32.size
  · refine (place_of (E := Any) h hp (fun _ _ _ => id) fun e₁ k₁ => ?_).mono
      (fun _ _ hplaces => ⟨hp, hplaces⟩) fun _ _ => id
    exact settle_done k₁.1 (k₁.2.1 ▸ hb) (Chunk.fits_holding c hp)
  · unfold place
    rw [ends_bind]
    refine ends_of_checked fun len _ => ?_
    rw [if_pos (Nat.le_of_not_lt hp), ends_bind]
    exact ends_refuse.2 trivial

/-- A chunk that is read back passes for its record. -/
theorem load_done (h : e.Shows m) (hc : c.after * blockSize ≤ m.content.size) :
    Ends (load c) e (fun a e' => a.2 = slice m.content (c.first * blockSize) c.byteLen ∧
      Frame.verify a.2 c = .ok a.1 ∧ Keeps e m e') Any := by
  have hroom := room_lt (δ := δ)
  have hsize := Lawful.size_lt h
  have hend : c.first * blockSize + c.byteLen ≤ m.content.size := by
    rwa [Chunk.byteLen, ← Nat.add_mul, ← Chunk.after_eq]
  unfold load
  rw [ends_bind, ends_checked (Chunk.start_eq (by omega)), ends_bind]
  refine (read_ends h hend).mono ?_ fun _ _ => False.elim
  rintro buf e' ⟨rfl, k⟩
  rw [ends_bind]
  exact ends_of_except fun head hv => ends_pure.2 ⟨rfl, hv, k⟩

/-- A copy has a header and a footer of its own, and between them what the chunk has. -/
theorem copy_wraps (h : e.Shows m) (hb : e.occupancy.blockSize = blockSize)
    (hc : c.after * blockSize ≤ m.content.size) :
    Ends (copy c r) e (fun moved e' => ∃ start head, moved = c.movedTo start ∧
      moved.first = start ∧
      Frame.verify (slice m.content (c.first * blockSize) c.byteLen) c = .ok head ∧
      Room e r start c.len.toNat ∧ Takes e start c.len.toNat (m.change (.write (start * blockSize)
        (Frame.wrap moved head.payload
          (Frame.middle (slice m.content (c.first * blockSize) c.byteLen))))) e') Any := by
  have hend : c.first * blockSize + c.byteLen ≤ m.content.size := by
    rwa [Chunk.byteLen, ← Nat.add_mul, ← Chunk.after_eq]
  have hbytes := size_slice hend
  have hsize := Lawful.size_lt h
  have hlimit := Lawful.room_le (δ := δ)
  unfold copy
  refine (load_done h hc).bind ?_ fun _ _ hf => hf
  rintro ⟨head, source⟩ e₁ ⟨rfl, hverify, k₁⟩
  obtain ⟨foot, hpasses⟩ := Frame.passes_of_verify hverify
  have hfits := hpasses.fits
  dsimp only at hverify hfits ⊢
  refine (acquire_ends k₁.1 (by omega)).bind ?_ fun _ _ => False.elim
  rintro _ e₂ ⟨rfl, k₂⟩
  have k₂ := k₁.trans k₂
  rw [overwrite_zeros, ends_bind, ends_checked (Frame.write_eq (by omega) _ _)]
  refine (allocate_taking (k₂.2.1 ▸ hb)).bind ?_ fun _ _ hf => hf
  rintro _ e₃ ⟨start, wasteful, rfl, hroom, rfl⟩
  have k₃ := k₂.takes (takes_taking k₂.1 start c.len.toNat wasteful)
  rw [Nat.mul_div_cancel _ (by decide)]
  split
  · exact ends_bind.2 (ends_throw.2 trivial)
  have hfirst : (c.movedTo start).first = start := by
    have hlt := hroom.lt
    refine c.first_movedTo ?_
    simp only [mul_blockSize] at hlt
    omega
  rw [ends_bind, ends_checked (Frame.write_eq (by rw [Frame.size_wrap]; omega) _ _),
    Frame.middle_wrap]
  refine (write_done k₃.1 (Frame.size_wrap_pos ..)).attempted (fun _ e₄ k₄ => ?_) fun _ _ =>
    ends_bind.2 (ends_any fun _ _ => ends_refusing)
  refine (release_ends k₄.1).bind (fun _ e₅ k₅ => ends_pure.2 ?_) fun _ _ => False.elim
  obtain ⟨hlt, hp, hv, ho⟩ := hroom
  rw [k₂.2.1] at hp hv ho
  exact ⟨start, head, rfl, hfirst, hverify, ⟨hlt, hp, hv, ho⟩, (k₃.keeps k₄).keeps k₅⟩

/-- A chunk that is copied keeps its payload, and its record names the new place. -/
theorem copy_done (h : e.Shows m) (hb : e.occupancy.blockSize = blockSize)
    (hd : Holds m.content (c.first * blockSize) (Frame.framed c p)) (hf : Frame.Fits c p)
    (hn : 0 < c.len.toNat) :
    Ends (copy c r) e (fun moved e' => ∃ start, moved = c.movedTo start ∧ moved.first = start ∧
      e.occupancy.preview c.len.toNat r = .ok start ∧ Fresh e r moved p ∧ Puts e moved p m e')
      Any := by
  have hend := hd.1
  have hslice := hd.2
  rw [Frame.size_framed hf] at hend hslice
  have hc : c.after * blockSize ≤ m.content.size := by
    rwa [Chunk.byteLen, ← Nat.add_mul, ← Chunk.after_eq] at hend
  refine (copy_wraps h hb hc).mono ?_ fun _ _ hf => hf
  rintro _ e' ⟨start, head, rfl, hfirst, hverify, hroom, htakes⟩
  rw [hslice] at hverify htakes
  obtain rfl := Except.ok.inj ((Frame.verify_framed hf rfl rfl rfl).symm.trans hverify)
  have hputs : Puts e (c.movedTo start) p m e' := by
    rw [Puts, hfirst]
    rwa [Frame.framed, Frame.middle_wrap] at htakes
  refine ⟨start, rfl, hfirst, hroom.preview, Room.fresh ?_ hf hn hputs.1, hputs⟩
  rw [hfirst]
  exact hroom

end Engine

end BlockStore
