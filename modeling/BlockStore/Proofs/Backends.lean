import BlockStore.Proofs.Device
import BlockStore.Proofs.Shrinking

namespace BlockStore

open BlockStore.Action Bytes

namespace Sparse

/-- All bytes behind the end are zero. -/
def Tight (s : Sparse) : Prop := ∀ i, s.length ≤ i → s.byte i = 0

variable {s : Sparse} {b patch : ByteArray} {pos len n : Nat}

theorem byte_ofBytes (b : ByteArray) (i : Nat) :
    (ofBytes b).byte i = if h : i < b.size then b[i] else 0 := by
  simp only [byte, ofBytes, byteIn, Nat.zero_le, true_and, Nat.sub_zero]

theorem tight_ofBytes (b : ByteArray) : (ofBytes b).Tight := by
  intro i hi
  exact (byte_ofBytes b i).trans (dif_neg (Nat.not_lt.2 hi))

theorem Tight.overwrite (h : s.Tight) : (s.overwrite pos patch).Tight := by
  intro i hi
  have hlength : max s.length (pos + patch.size) ≤ i := hi
  rw [byte_overwrite, dif_neg (by omega)]
  exact h i (by omega)

theorem tight_resize (s : Sparse) (n : Nat) : (s.resize n).Tight := by
  intro i hi
  exact (byte_resize s n i).trans (if_neg (Nat.not_lt.2 hi))

theorem slice_ofBytes (b : ByteArray) : (ofBytes b).slice 0 b.size = b := by
  refine ByteArray.ext_getElem (size_slice ..) fun i hi hb => ?_
  rw [getElem_slice, Nat.zero_add, byte_ofBytes, dif_pos hb]

theorem grow_slice (ht : s.Tight) (h : s.length ≤ len) :
    grow (s.slice 0 len) n = s.slice 0 (max len n) := by
  refine ByteArray.ext_getElem ?_ fun i hi hi' => ?_
  · rw [size_grow, size_slice, size_slice]
  · rw [getElem_grow, getElem_slice, Nat.zero_add]
    split
    · rw [getElem_slice, Nat.zero_add]
    · next hlen =>
      rw [size_slice] at hlen
      exact (ht i (by omega)).symm

theorem overwrite_slice (h : pos + patch.size ≤ len) :
    Bytes.overwrite (s.slice 0 len) pos patch = (s.overwrite pos patch).slice 0 len := by
  have hsize : pos + patch.size ≤ (s.slice 0 len).size := by rwa [size_slice]
  refine ByteArray.ext_getElem ?_ fun i hi hi' => ?_
  · rw [size_overwrite hsize, size_slice, size_slice]
  · rw [getElem_overwrite hsize hi (size_overwrite hsize ▸ hi)]
    simp only [getElem_slice, Nat.zero_add, byte_overwrite]

end Sparse

namespace Device

/-- A call that reads or changes a file, or makes it durable. -/
inductive Access
  | read (pos len : Nat)
  | change (c : Change)
  | sync

/-- The bytes that a call returns, none if it is refused, and the size of the file afterwards. -/
abbrev Sight := Option ByteArray × Nat

/-- The sizes are the same, and so are the bytes unless one of the calls is refused. -/
def Sight.Matches (s s' : Sight) : Prop := s.2 = s'.2 ∧ ∀ x ∈ s.1, ∀ y ∈ s'.1, x = y

theorem Sight.Matches.refl (s : Sight) : s.Matches s :=
  ⟨rfl, fun _ hx _ hy => Option.some.inj (hx.symm.trans hy)⟩

namespace Access

section

variable {δ : Type} [Device δ]

def alter : Change → Action δ Unit
  | .write pos data => Device.write pos data
  | .cut size => Device.truncate size

def run : Access → Action δ ByteArray
  | read pos len => Device.read pos len
  | change c => do
    alter c
    return .empty
  | sync => do
    Device.sync
    return .empty

def watch (a : Access) : Action δ Sight := do
  let result ← a.run.attempt
  return (result.toOption, Device.size (← get))

def watchAll (as : List Access) : Action δ (List Sight) := as.mapM watch

end

/-- What the call makes of a plain array of bytes. -/
def apply (b : ByteArray) : Access → ByteArray
  | change c => c.apply b
  | read .. | sync => b

/-- What a plain array of bytes returns. -/
def answer (b : ByteArray) : Access → Option ByteArray
  | read pos len => if pos + len ≤ b.size then some (slice b pos len) else none
  | change _ | sync => some .empty

def sight (b : ByteArray) (a : Access) : Sight := (a.answer b, (a.apply b).size)

def sights : List Access → ByteArray → List Sight
  | [], _ => []
  | a :: as, b => a.sight b :: sights as (a.apply b)

/-- Each call meets `P` on the bytes that the calls before it have left. -/
def Along (P : ByteArray → Access → Prop) : List Access → ByteArray → Prop
  | [], _ => True
  | a :: as, b => P b a ∧ Along P as (a.apply b)

/-- The call keeps to positions up to `limit`, and cuts no more than there is. -/
def Fits (limit : Nat) (b : ByteArray) : Access → Prop
  | read pos len => pos + len ≤ limit
  | change (.write pos data) => pos + data.size ≤ limit
  | change (.cut size) => size ≤ b.size
  | sync => True

/-- An empty range does not lie behind the end. -/
def Solid (b : ByteArray) : Access → Prop
  | read pos len => len = 0 → pos ≤ b.size
  | change (.write pos data) => data.size = 0 → pos ≤ b.size
  | change (.cut _) | sync => True

instance {limit : Nat} {b : ByteArray} : ∀ a, Decidable (Fits limit b a)
  | read .. => Nat.decLe ..
  | change (.write ..) => Nat.decLe ..
  | change (.cut _) => Nat.decLe ..
  | sync => .isTrue trivial

instance {b : ByteArray} : ∀ a, Decidable (Solid b a)
  | read .. => inferInstanceAs (Decidable (_ → _))
  | change (.write ..) => inferInstanceAs (Decidable (_ → _))
  | change (.cut _) => .isTrue trivial
  | sync => .isTrue trivial

instance decidableAlong {P : ByteArray → Access → Prop} [∀ b a, Decidable (P b a)] :
    ∀ as b, Decidable (Along P as b)
  | [], _ => .isTrue trivial
  | a :: as, b =>
    have : Decidable (Along P as (a.apply b)) := decidableAlong as (a.apply b)
    inferInstanceAs (Decidable (_ ∧ _))

end Access

section

variable {δ : Type} [Device δ] {d : δ} {E : Failure → δ → Prop}

namespace Access

theorem ends_watch {a : Access} {Q : Sight → δ → Prop} : Ends a.watch d Q E ↔
    Ends a.run d (fun x t => Q (some x, Device.size t) t) fun f t => match f with
      | .error _ => Q (none, Device.size t) t
      | .fault f => E (.fault f) t := by
  simp only [watch, ends_bind, ends_attempt, ends_get, ends_pure]
  rfl

theorem ends_run_change {c : Change} {Q : ByteArray → δ → Prop} :
    Ends (change c).run d Q E ↔ Ends (alter c) d (fun _ t => Q .empty t) E := by
  simp only [run, ends_bind, ends_pure]

theorem ends_run_sync {Q : ByteArray → δ → Prop} :
    Ends sync.run d Q E ↔ Ends Device.sync d (fun _ t => Q .empty t) E := by
  simp only [run, ends_bind, ends_pure]

end Access

end

namespace Memory

open Access

variable {m : Memory} {b : ByteArray} {limit : Nat} {a : Access} {as : List Access}

/-- A file in memory serves a call as a plain array of bytes does. -/
theorem watch_ends (hlimit : limit < Bytes.limit) (h : Shows m ⟨b, []⟩) (hfit : a.Fits limit b) :
    Ends a.watch m (fun seen t => seen = a.sight b ∧ Shows t ⟨a.apply b, []⟩)
      fun _ _ => False := by
  have hword := limit_lt
  -- What is seen of a call that succeeds follows from what is left behind.
  have hsize {t : Memory} {b' : ByteArray} (ht : Shows t ⟨b', []⟩) : Device.size t = b'.size :=
    congrArg ByteArray.size ht.2.1
  rw [ends_watch]
  cases a with
  | read pos len =>
    have hlast : pos + len ≤ limit := hfit
    have hb : m.bytes = b := h.2.1
    change Ends (Memory.read pos len) m _ _
    unfold Memory.read
    rw [ends_bind, ends_get, ends_bind, ends_checked (word64_of_lt (by omega)), hb]
    split
    · next hend => exact ends_refuse.2 ⟨by rw [sight, answer, if_neg (by omega), hsize h, apply], h⟩
    · next hend => exact ends_pure.2 ⟨by rw [sight, answer, if_pos (by omega), hsize h, apply], h⟩
  | change c =>
    rw [ends_run_change]
    have hc : Ends (alter c) m (fun _ t => Shows t ⟨c.apply b, []⟩) fun _ _ => False := by
      cases c with
      | write pos data => exact write_ends h (Nat.lt_of_le_of_lt hfit hlimit)
      | cut size => exact truncate_ends h
    exact hc.mono (fun _ t ht => ⟨by rw [hsize ht]; rfl, ht⟩) fun _ _ => False.elim
  | sync =>
    rw [ends_run_sync]
    exact (sync_ends h).mono (fun _ t ht => ⟨by rw [hsize ht]; rfl, ht⟩) fun _ _ => False.elim

theorem watchAll_ends (hlimit : limit < Bytes.limit) (h : Shows m ⟨b, []⟩)
    (hfit : Along (Fits limit) as b) : Ends (watchAll as) m
      (fun seen t => seen = sights as b ∧ Shows t ⟨as.foldl apply b, []⟩) fun _ _ => False := by
  induction as generalizing m b with
  | nil => exact ends_pure.2 ⟨rfl, h⟩
  | cons a as ih =>
    rw [watchAll, List.mapM_cons]
    refine (watch_ends hlimit h hfit.1).bind ?_ fun _ _ => False.elim
    rintro _ t ⟨rfl, ht⟩
    refine (ih ht hfit.2).bind ?_ fun _ _ => False.elim
    rintro _ u ⟨rfl, hu⟩
    exact ends_pure.2 ⟨rfl, hu⟩

end Memory

namespace Disk

open Access

/-- Up to the size that is counted the file reads as `b`, with zeros where it ends before. -/
structure PadsTo (limit : Nat) (b : ByteArray) (d : Disk) : Prop where
  unsealed : d.sealed = false
  bytes : d.content.slice 0 d.size = b
  tight : d.content.Tight
  length_le : d.content.length ≤ d.size
  size_le : d.size ≤ limit
  limit_eq : d.limit = limit

/-- The size that is counted is the length of the file. -/
def Whole (d : Disk) : Prop := d.content.length = d.size

variable {d : Disk} {b : ByteArray} {limit pos len n : Nat} {data : ByteArray} {a : Access}
  {as : List Access}

namespace PadsTo

theorem size_eq (h : PadsTo limit b d) : d.size = b.size := by
  rw [← h.bytes, Sparse.size_slice]

theorem write (h : PadsTo limit b d) (hfit : pos + data.size ≤ limit) :
    Ends (Disk.write pos data) d (fun _ t => PadsTo limit (Change.apply b (.write pos data)) t ∧
      (d.Whole → (data.size = 0 → pos ≤ b.size) → t.Whole)) fun _ _ => False := by
  have hsize := h.size_eq
  have hlength := h.length_le
  have hle := h.size_le
  have hgrow : grow b (pos + data.size) = d.content.slice 0 (max d.size (pos + data.size)) := by
    rw [← Sparse.grow_slice h.tight hlength, h.bytes]
  unfold Disk.write
  rw [ends_bind, ends_get, h.unsealed, if_neg Bool.false_ne_true, h.limit_eq, if_neg (by omega)]
  split
  · next hdata =>
    rw [if_neg (by omega), ends_bind, ends_modify, ends_modify]
    refine ⟨⟨h.unsealed, ?_, h.tight.overwrite, ?_, ?_, h.limit_eq⟩, ?_⟩
    · rw [Change.apply, hgrow, Sparse.overwrite_slice (Nat.le_max_right ..)]
    · exact max_le_max_right _ hlength
    · exact Nat.max_le.2 ⟨hle, hfit⟩
    · intro hwhole _
      exact congrArg (max · (pos + data.size)) hwhole
  · next hdata =>
    -- Only the count moves, and behind the end that makes it more than the length.
    rw [ends_modify]
    refine ⟨⟨h.unsealed, ?_, h.tight, ?_, ?_, h.limit_eq⟩, ?_⟩
    · rw [Change.apply, hgrow, overwrite_of_size_eq_zero (by omega)]
    · exact Nat.le_trans hlength (Nat.le_max_left ..)
    · exact Nat.max_le.2 ⟨hle, hfit⟩
    · intro hwhole hsolid
      have hpos := hsolid (by omega)
      exact hwhole.trans (Nat.max_eq_left (by omega)).symm

theorem truncate (h : PadsTo limit b d) (hlimit : limit < Bytes.limit) (hfit : n ≤ b.size) :
    Ends (Disk.truncate n) d (fun _ t => PadsTo limit (Change.apply b (.cut n)) t ∧ t.Whole)
      fun _ _ => False := by
  have hsize := h.size_eq
  have hle := h.size_le
  unfold Disk.truncate
  rw [ends_bind, ends_get, h.unsealed, if_neg Bool.false_ne_true, if_neg (by omega), h.limit_eq,
    if_neg (by omega), ends_modify]
  refine ⟨⟨h.unsealed, ?_, Sparse.tight_resize _ n, Nat.le_refl n, ?_, h.limit_eq⟩, rfl⟩
  · rw [Change.apply, ← h.bytes]
    exact Sparse.slice_resize (by omega)
  · exact Nat.le_trans hfit (hsize ▸ hle)

theorem read (h : PadsTo limit b d) (hlimit : limit < Bytes.limit) (hfit : pos + len ≤ limit) :
    Ends (Disk.read pos len) d
      (fun x t => t = d ∧ (∀ y ∈ answer b (.read pos len), x = y) ∧
        (d.Whole → Solid b (.read pos len) → answer b (.read pos len) = some x))
      fun f t => (∃ e, f = .error e) ∧ t = d ∧ (d.Whole → answer b (.read pos len) = none) := by
  have hsize := h.size_eq
  have hlength := h.length_le
  unfold Disk.read
  rw [ends_bind, ends_get, h.limit_eq, if_neg (by omega), ends_bind,
    ends_checked (room_eq_ok.2 (by omega))]
  split
  · next hempty =>
    -- An empty range is answered wherever it lies.
    have hnone : slice b pos len = .empty := by rw [hempty, slice_zero]
    refine ends_pure.2 ⟨rfl, fun y hy => ?_, fun _ hsolid => ?_⟩
    · rw [answer, Option.mem_ite_none_right, hnone] at hy
      exact Option.some.inj hy.2
    · have hpos := hsolid hempty
      rw [answer, if_pos (by omega), hnone]
  · split
    · next hend =>
      refine ends_refuse.2 ⟨⟨_, rfl⟩, rfl, fun hwhole => ?_⟩
      have hcounted : d.content.length = d.size := hwhole
      rw [answer, if_neg (by omega)]
    · next hend =>
      have hslice : answer b (.read pos len) = some (d.content.slice pos len) := by
        have hread : pos + len ≤ d.size := by omega
        rw [answer, if_pos (hsize ▸ hread), ← h.bytes, Sparse.slice_slice hread]
      refine ends_pure.2 ⟨rfl, fun y hy => ?_, fun _ _ => hslice⟩
      rw [hslice] at hy
      exact Option.some.inj hy

/-- A file on disk serves a call as a plain array of bytes does as long as the size that is counted
is its length. Otherwise it may be the only one to answer or to refuse. -/
theorem watch_ends (h : PadsTo limit b d) (hlimit : limit < Bytes.limit) (hfit : a.Fits limit b) :
    Ends a.watch d (fun seen t => PadsTo limit (a.apply b) t ∧ seen.Matches (a.sight b) ∧
      (d.Whole → a.Solid b → seen = a.sight b ∧ t.Whole)) fun _ _ => False := by
  rw [Access.ends_watch]
  cases a with
  | read pos len =>
    refine (h.read hlimit hfit).mono ?_ ?_
    · rintro x _ ⟨rfl, hmatch, hsame⟩
      refine ⟨h, ⟨h.size_eq, fun z hz y hy => ?_⟩, fun hwhole hsolid => ⟨?_, hwhole⟩⟩
      · exact Option.some.inj hz ▸ hmatch y hy
      · rw [sight, hsame hwhole hsolid]
        exact Prod.ext rfl h.size_eq
    · rintro _ _ ⟨⟨e, rfl⟩, rfl, hsame⟩
      refine ⟨h, ⟨h.size_eq, nofun⟩, fun hwhole _ => ⟨?_, hwhole⟩⟩
      rw [sight, hsame hwhole]
      exact Prod.ext rfl h.size_eq
  | change c =>
    rw [ends_run_change]
    have hc : Ends (alter c) d (fun _ t => PadsTo limit (c.apply b) t ∧
        (d.Whole → Solid b (change c) → t.Whole)) fun _ _ => False := by
      cases c with
      | write pos data => exact h.write hfit
      | cut size =>
        exact (h.truncate hlimit hfit).mono (fun _ _ ht => ⟨ht.1, fun _ _ => ht.2⟩) fun _ _ => id
    refine hc.mono ?_ fun _ _ => False.elim
    rintro _ t ⟨ht, hwhole⟩
    have hsight : (some .empty, Device.size t) = (change c).sight b := Prod.ext rfl ht.size_eq
    rw [hsight]
    exact ⟨ht, .refl _, fun hw hsolid => ⟨rfl, hwhole hw hsolid⟩⟩
  | sync =>
    rw [ends_run_sync]
    have hsight : (some .empty, Device.size d) = Access.sync.sight b := Prod.ext rfl h.size_eq
    refine ends_pure.2 ?_
    rw [hsight]
    exact ⟨h, .refl _, fun hw _ => ⟨rfl, hw⟩⟩

theorem watchAll_ends (h : PadsTo limit b d) (hlimit : limit < Bytes.limit)
    (hfit : Along (Fits limit) as b) : Ends (watchAll as) d
      (fun seen t => List.Forall₂ Sight.Matches seen (sights as b) ∧
        PadsTo limit (as.foldl apply b) t ∧
        (d.Whole → Along Solid as b → seen = sights as b ∧ t.Whole)) fun _ _ => False := by
  induction as generalizing d b with
  | nil => exact ends_pure.2 ⟨.nil, h, fun hwhole _ => ⟨rfl, hwhole⟩⟩
  | cons a as ih =>
    rw [watchAll, List.mapM_cons]
    refine (h.watch_ends hlimit hfit.1).bind ?_ fun _ _ => False.elim
    rintro s t ⟨ht, hmatch, hsame⟩
    refine (ih ht hfit.2).bind ?_ fun _ _ => False.elim
    rintro seen u ⟨hall, hu, hsames⟩
    refine ends_pure.2 ⟨.cons hmatch hall, hu, fun hwhole hsolid => ?_⟩
    obtain ⟨rfl, htwhole⟩ := hsame hwhole hsolid.1
    obtain ⟨rfl, huwhole⟩ := hsames htwhole hsolid.2
    exact ⟨rfl, huwhole⟩

end PadsTo

/-- A file of these bytes, just opened to be written. -/
def opened (b : ByteArray) (limit : Nat) (h : limit < Bytes.limit) : Disk :=
  { content := .ofBytes b, size := b.size, sealed := false, limit, limit_lt := h }

theorem padsTo_opened (hlimit : limit < Bytes.limit) (h : b.size ≤ limit) :
    PadsTo limit b (opened b limit hlimit) where
  unsealed := rfl
  bytes := Sparse.slice_ofBytes b
  tight := Sparse.tight_ofBytes b
  length_le := Nat.le_refl _
  size_le := h
  limit_eq := rfl

end Disk

open Access

/-- A file in memory and one on disk that begin with the same bytes are always of the same size,
and never return different bytes for one call. As long as no empty range lies behind the end, each
call is answered by both or refused by both, and the size on disk is the length of the file. With
the greatest `limit`, the file system sets none of its own. -/
theorem backends_agree {m : Memory} {limit : Nat} {as : List Access} (hlimit : limit < Bytes.limit)
    (hm : m.sealed = false) (hsize : m.bytes.size ≤ limit) (hfit : Along (Fits limit) as m.bytes) :
    ∃ seen seen' m' d', watchAll as m = (.ok seen, m') ∧
      watchAll as (Disk.opened m.bytes limit hlimit) = (.ok seen', d') ∧
      seen = sights as m.bytes ∧ List.Forall₂ Sight.Matches seen' seen ∧
      d'.content.slice 0 d'.size = m'.bytes ∧
      (Along Solid as m.bytes → seen' = seen ∧ d'.size = d'.content.length) := by
  have hshows : m.Shows ⟨m.bytes, []⟩ := ⟨hm, rfl, Nat.lt_of_le_of_lt hsize hlimit⟩
  obtain ⟨seen, m', hrun, rfl, -, hbytes, -⟩ := (Memory.watchAll_ends hlimit hshows hfit).total
  obtain ⟨seen', d', hrun', hall, hd', hsame⟩ :=
    ((Disk.padsTo_opened hlimit hsize).watchAll_ends hlimit hfit).total
  refine ⟨_, seen', m', d', hrun, hrun', rfl, hall, hd'.bytes.trans hbytes.symm, fun hsolid => ?_⟩
  obtain ⟨heq, hwhole⟩ := hsame rfl hsolid
  exact ⟨heq, hwhole.symm⟩

/-- A write behind a gap, a cut, a write at the end, and reads of which two reach too far. -/
def gappedAccesses : List Access :=
  [.change (.write 6 (ofList [9, 9])), .read 3 5, .read 7 2, .change (.cut 5),
    .change (.write 5 .empty), .read 5 0, .sync, .read 4 2]

theorem backends_agree_gapped : ∃ seen m' d',
    watchAll gappedAccesses ({ bytes := ofList [1, 2, 3, 4] } : Memory) = (.ok seen, m') ∧
      watchAll gappedAccesses (Disk.opened (ofList [1, 2, 3, 4]) (Bytes.limit - 1) (by decide)) =
        (.ok seen, d') ∧
      seen.map (fun s => (s.1.map toList, s.2)) =
        [(some [], 8), (some [4, 0, 0, 9, 9], 8), (none, 8), (some [], 5), (some [], 5),
          (some [], 5), (some [], 5), (none, 5)] ∧
      d'.size = d'.content.length ∧ d'.content.slice 0 d'.size = m'.bytes := by
  obtain ⟨seen, seen', m', d', hrun, hrun', hseen, -, hbytes, hsolid⟩ :=
    @backends_agree { bytes := ofList [1, 2, 3, 4] } (Bytes.limit - 1) gappedAccesses (by decide)
      rfl (by decide) (by decide +kernel)
  obtain ⟨rfl, hwhole⟩ := hsolid (by decide +kernel)
  refine ⟨_, m', d', hrun, hrun', ?_, hwhole, hbytes⟩
  rw [hseen]
  decide +kernel

end Device

end BlockStore
