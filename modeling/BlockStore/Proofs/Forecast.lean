import BlockStore.Proofs.Fitting
import BlockStore.Proofs.Lowering
import BlockStore.Proofs.Outline

namespace BlockStore

open BlockStore.Action Device Engine

namespace Sketch

/-- A request whose outcome the size of its payload tells. -/
inductive Step
  | write (payload : ByteArray) (n : Nat) (h : payload.size = n)
  | remove (id : UInt32)
  | commit

/-- So many bytes are written, all of them zero. -/
def Step.zeros (n : Nat) : Step := .write (Bytes.zeros n) n (Bytes.size_zeros n)

def Step.request : Step → Request
  | write payload _ _ => .write payload
  | remove id => .remove id
  | commit => .commit

theorem Step.orderly {steps : List Step} : ∀ q ∈ steps.map request, q.Orderly :=
  List.forall_mem_map.2 fun step _ => by cases step <;> trivial

/-- The sketch of a new store. -/
def blank (settings : Settings) : Sketch :=
  ⟨⟨settings, settings.reuseSpace, .nothing, headerBytes, .create headerBlocks blockSize⟩, {}⟩

def extent (s : Sketch) : Nat := blocksCovering s.outline.size blockSize

/-- Behind the first gap, at `pos`, there is a chunk that may move, and each such chunk fits into a
pass. -/
def Moves (s : Sketch) (pos passBytes : Nat) : Prop :=
  s.outline.occupancy.firstGapPos = .ok pos ∧ s.outline.occupancy.blockSize = blockSize ∧
  blockSize ≤ passBytes ∧ (∀ c ∈ s.records.chunks, c.saved → c.first < 2 ^ 51) ∧
  (∃ c ∈ s.records.chunks, Compaction.Movable s.outline.occupancy (pos / blockSize) c) ∧
  ∀ c ∈ s.records.chunks, Compaction.Movable s.outline.occupancy (pos / blockSize) c →
    c.len.toNat ≤ passBytes / blockSize

instance (s : Sketch) (pos passBytes : Nat) : Decidable (s.Moves pos passBytes) :=
  inferInstanceAs (Decidable (_ ∧ _))

/-- The numbers are below their limits, on a device with so much room. -/
def Spacious (room : Nat) (s : Sketch) : Prop :=
  (s.records.nextId.toNat + 4 < UInt32.size ∧ s.records.version.toNat + 4 < UInt64.size) ∧
  Image.headSize + Image.entrySize * s.records.data.size < UInt32.size ∧
  (3 * (s.extent + Chunk.maxBlocks) + 3 * Chunk.maxBlocks) * blockSize < room ∧
  (3 * (s.extent + Chunk.maxBlocks) + 3 * Chunk.maxBlocks) * blockSize * 100 < UInt64.size

def Step.Fits (room : Nat) (s : Sketch) : Step → Prop
  | write _ n _ => s.Spacious room ∧ n < UInt32.size
  | remove _ | commit => s.Spacious room

instance (room : Nat) (s : Sketch) : Decidable (s.Spacious room) :=
  inferInstanceAs (Decidable (_ ∧ _))

instance (room : Nat) (s : Sketch) (step : Step) : Decidable (step.Fits room s) :=
  match step with
  | .write .. => inferInstanceAs (Decidable (_ ∧ _))
  | .remove _ | .commit => inferInstanceAs (Decidable (s.Spacious room))

end Sketch

/-- What can be told of a session without the bytes. -/
structure Forecast where
  sketch : Sketch
  ledger : Ledger := {}

namespace Forecast

open Sketch

def after (f : Forecast) : Step → Except Failure Forecast
  | .write payload n _ => do
    let sketch ← f.sketch.write n
    return ⟨sketch, { f.ledger with
      live := f.ledger.live.put f.sketch.records.nextId payload
      issued := f.sketch.records.nextId :: f.ledger.issued }⟩
  | .remove id => return ⟨f.sketch.remove id, { f.ledger with live := f.ledger.live.drop id }⟩
  | .commit => return ⟨← f.sketch.commit, { f.ledger with committed := f.ledger.live }⟩

/-- What comes of these requests, as long as each of them fits. -/
def run (room : Nat) : List Step → Forecast → Option Forecast
  | [], f => some f
  | step :: steps, f =>
    if step.Fits room f.sketch then (f.after step).toOption.bind (run room steps) else none

end Forecast

/-- The bounds that a sketch keeps are those of the store. -/
theorem Store.spacious_of_sketch {δ : Type} [Device δ] [Lawful δ] {v : Store δ} {room : Nat}
    (hroom : room ≤ Lawful.room δ) (h : v.sketch.Spacious room) : v.Spacious := by
  obtain ⟨⟨hid, hversion⟩, himage, hlt, hpercent⟩ := h
  exact ⟨hid, hversion, himage, Nat.lt_of_lt_of_le hlt hroom, hpercent⟩

theorem Store.exists_chooses {δ : Type} [Device δ] {v : Store δ} {pos passBytes : Nat}
    (h : v.sketch.Moves pos passBytes) : ∃ c moves, v.Chooses passBytes (c :: moves) := by
  obtain ⟨hpos, hblocks, hpass, hfirst, ⟨c, hc, hmovable⟩, hfit⟩ := h
  have hbudget : passBytes / blockSize ≠ 0 := (Nat.div_pos hpass (by decide)).ne'
  obtain ⟨d, hd, -⟩ := Compaction.exists_mem_sorted hc hmovable fun d hd hmov _ => hfit d hd hmov
  have hchoose :=
    Compaction.choose_eq_of_saved (pos / blockSize) passBytes (by rw [hblocks]; decide) hfirst
  rw [if_neg hbudget] at hchoose
  obtain ⟨first, moves, hcons⟩ := List.exists_cons_of_ne_nil (List.ne_nil_of_mem hd)
  rw [hcons] at hchoose
  exact ⟨first, moves, pos, hpos, hchoose⟩

theorem Sketch.Step.Fits.request {δ : Type} [Device δ] [Lawful δ] {v : Store δ} {room : Nat}
    {step : Step} (hroom : room ≤ Lawful.room δ) (h : step.Fits room v.sketch) :
    step.request.Fits v := by
  cases step with
  | write payload n hn =>
    subst hn
    exact ⟨Store.spacious_of_sketch hroom h.1, h.2⟩
  | remove id => exact Store.spacious_of_sketch hroom h
  | commit => exact Store.spacious_of_sketch hroom h

namespace Store

variable {δ : Type} [Device δ] {d : δ} {settings : Settings} {v : Store δ}

/-- In a new store only the header is in use. -/
theorem occupancy_of_openOn (hsize : Device.size d = 0) (hopen : openOn settings d = .ok v) :
    v.engine.occupancy = .create headerBlocks blockSize := by
  obtain ⟨e, he, ho, -, heq⟩ := openOn_eq (d := d) (usable_of_openOn hopen)
  have hends : Ends recover e (fun _ e' => e'.plan = e.plan) Any := by
    unfold recover
    rw [ends_bind, ends_get, Engine.size, he, if_pos hsize]
    split
    · exact ends_bind.2 (ends_refuse.2 trivial)
    refine (fixes_iff.1 (write_plan _ _) e).bind (fun _ e₁ h₁ => ?_) fun _ _ _ => trivial
    exact (fixes_iff.1 sync_plan e₁).bind (fun _ e₂ h₂ => ends_pure.2 (h₂.trans h₁))
      fun _ _ _ => trivial
  rw [heq] at hopen
  rcases hrun : recover e with ⟨f | records, e'⟩ <;> rw [hrun] at hopen
  · cases hopen
  · obtain rfl := Except.ok.inj hopen
    exact (Prod.mk.inj (hends.ok _ _ hrun)).1.trans ho

variable [Lawful δ] {m : Medium}

theorem Opened.sketch_eq (h : Opened settings m.created .blank v) (hm : m.content.size = 0)
    (ho : v.engine.occupancy = .create headerBlocks blockSize) : v.sketch = .blank settings := by
  have hsize : v.engine.size = headerBytes := by
    rw [size_eq h.shows, Medium.created, Medium.content_sync, Medium.content_change,
      Change.size_apply_write, hm, Superblock.size_toBytes]
    rfl
  have hsettings : v.engine.settings = settings := congrArg Mode.settings h.mode
  have hreuse : v.engine.reuse = settings.reuseSpace := congrArg Mode.reuse h.mode
  have hreserved : v.engine.reserved = .nothing := congrArg Mode.reserved h.mode
  have hrecords : v.records = {} := h.records
  rw [sketch, Engine.outline, hsettings, hreuse, hreserved, hsize, ho, hrecords]
  rfl

end Store

namespace Session

open Store

variable {δ : Type} [Device δ]

def forecast (s : Session δ) : Forecast := ⟨s.store.sketch, s.ledger⟩

variable [Lawful δ] {s t : Session δ} {allowed : Request → Prop} {qs : List Request}

/-- The user asks for these, one after the other, and gets an answer each time. -/
inductive Asks : Session δ → List Request → Session δ → Prop
  | nil {s : Session δ} : Asks s [] s
  | cons {s t : Session δ} {q : Request} {qs : List Request} {reply : Reply} {v : Store δ} :
      q.Fits s.store → q.run s.store = (.ok reply, v) → Asks (s.after q reply v) qs t →
      Asks s (q :: qs) t

theorem Asks.reachable {allowed : Request → Prop} (h : Asks s qs t) (hqs : ∀ q ∈ qs, allowed q)
    (hs : Reachable allowed s) : Reachable allowed t := by
  induction h with
  | nil => exact hs
  | cons hfits hrun _ ih =>
    obtain ⟨hq, hrest⟩ := List.forall_mem_cons.1 hqs
    exact ih hrest (.answered hs hq hfits hrun)

theorem Asks.served {ε : Type} [Device ε] [Faithful ε] {s t : Session ε} (h : Asks s qs t)
    (hs : Served s) : Served t := by
  induction h with
  | nil => exact hs
  | cons hfits hrun _ ih => exact ih (.answered hs hrun)

variable [Plain δ]

omit [Lawful δ] in
/-- What the request comes to, but for the bytes, is as the forecast has it. -/
theorem forecast_after (s : Session δ) (hwrite : s.store.engine.readOnly = false)
    (step : Sketch.Step) : Ends step.request.run s.store (fun reply v =>
      s.forecast.after step = .ok (s.after step.request reply v).forecast) Any := by
  cases step with
  | write payload n hn =>
    subst hn
    refine (write_sketch payload s.store).bind (fun c v hv => ends_pure.2 ?_) fun _ _ hf => hf
    obtain ⟨hid, hv⟩ := hv
    rw [Forecast.after, forecast, hv, forecast, after, Request.committed]
    dsimp only [Sketch.Step.request, Request.toCommit]
    rw [Halting.halts_through, hid]
    rfl
  | remove id =>
    refine (remove_sketch hwrite id).mono ?_ fun _ _ hf => hf
    rintro _ v ⟨⟨outcome, rfl⟩, hv⟩
    simp only [Forecast.after, forecast, after, hv, Request.committed, Sketch.Step.request,
      Request.toCommit, Halting.halts_through]
    rfl
  | commit =>
    have hsketch : Ends Request.commit.run s.store (fun reply v => reply = .done ∧
        s.store.sketch.commit = .ok v.sketch) Any :=
      (commit_sketch s.store).discard.bind (fun _ v hv => ends_pure.2 ⟨rfl, hv⟩) fun _ _ hf => hf
    refine (hsketch.and Request.commit_halts).mono ?_ fun _ _ _ => trivial
    rintro _ v ⟨⟨rfl, hv⟩, hhalts⟩
    simp only [Forecast.after, forecast, after, hv, Request.committed, Sketch.Step.request, hhalts]
    rfl

theorem Known.asks_of_run {room : Nat} {f : Forecast} (h : Known s) (hfails : ¬Lawful.fails δ)
    (hroom : room ≤ Lawful.room δ) {steps : List Sketch.Step}
    (hf : Forecast.run room steps s.forecast = some f) :
    ∃ t, Asks s (steps.map Sketch.Step.request) t ∧ t.forecast = f := by
  induction steps generalizing s with
  | nil => exact ⟨s, .nil, Option.some.inj hf⟩
  | cons step steps ih =>
    rw [Forecast.run] at hf
    split at hf
    · next hfits =>
      have hfits := hfits.request hroom
      have hwrite : s.store.engine.readOnly = false := by
        obtain ⟨-, m, E, hcons⟩ := h
        exact Engine.readOnly_eq hcons.shows
      have hends := (h.run_ends hfits).and (s.forecast_after hwrite step)
      obtain ⟨reply, v, hrun, -, hafter⟩ :=
        (hends.mono (fun _ _ h => h) fun _ _ hf => hfails hf.1.1).total
      rw [hafter] at hf
      obtain ⟨t, hasks, ht⟩ := ih (h.after hfits hrun) hf
      exact ⟨t, .cons hfits hrun hasks, ht⟩
    · cases hf

/-- A forecast for a new store comes true on a device that never fails. -/
theorem exists_forecast {d : δ} {m : Medium} {settings : Settings} {room : Nat} {f : Forecast}
    (hd : Lawful.Shows d m) (hm : m.content.size = 0) (hs : settings.Usable)
    (hfails : ¬Lawful.fails δ) (hroom : room ≤ Lawful.room δ) (hheader : headerBytes < room)
    {steps : List Sketch.Step} (hf : Forecast.run room steps ⟨.blank settings, {}⟩ = some f) :
    ∃ v t, openOn settings d = .ok v ∧ Asks ⟨v, {}⟩ (steps.map Sketch.Step.request) t ∧
      t.forecast = f := by
  have hlt := Nat.lt_of_lt_of_le hheader hroom
  obtain ⟨v, hopen, hopened⟩ := (openOn_of_empty hd hm hs hlt).resolve_right fun h => hfails h.1
  have ho := occupancy_of_openOn ((Lawful.size_eq hd).trans hm) hopen
  rw [← hopened.sketch_eq hm ho] at hf
  obtain ⟨t, hasks, ht⟩ := (known_of_opened hlt hd hm hs hopen).asks_of_run hfails hroom hf
  exact ⟨v, t, hopen, hasks, ht⟩

/-- So does one for a new store in memory. -/
theorem exists_in_memory {settings : Settings} (hs : settings.Usable) {steps : List Sketch.Step}
    {P : Forecast → Prop} (h : ∃ f ∈ Forecast.run Bytes.limit steps ⟨.blank settings, {}⟩, P f) :
    ∃ s : Session Memory, Reachable Request.Orderly s ∧ Served s ∧ P s.forecast := by
  obtain ⟨f, hf, hP⟩ := h
  obtain ⟨v, s, hopen, hasks, rfl⟩ :=
    exists_forecast shows_empty rfl hs (fun h => h) (Nat.le_refl _) (by decide) hf
  exact ⟨s, hasks.reachable Sketch.Step.orderly (.opened (by decide) shows_empty rfl hs hopen),
    hasks.served (.opened (by decide) shows_empty rfl hopen), hP⟩

end Session

end BlockStore
