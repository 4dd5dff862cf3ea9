import BlockStore.Proofs.Forecast

namespace BlockStore

open BlockStore.Action Device Relation

namespace Store

variable {δ : Type} [Device δ] {v : Store δ} {target passBytes : Nat} {moves : List Chunk}
  {c : Chunk}

/-- Less than `target` percent of the blocks behind the header are in use. -/
def Sparse (v : Store δ) (target : Nat) : Prop :=
  ∃ rate, v.engine.occupancy.fillRate = .ok rate ∧ rate < target

/-- A compaction with these limits has something to move. -/
def Called (v : Store δ) (target passBytes : Nat) : Prop :=
  v.Sparse target ∧ ∃ c moves, Chooses v passBytes (c :: moves)

/-- A compaction with these limits has an answer, and leaves `w`. -/
def Answers (target passBytes : Nat) (v w : Store δ) : Prop :=
  ∃ moved, compact target passBytes v = (.ok moved, w)

/-- The answer of a compaction, and the pass that a compaction begins with. The compactions that may
follow on the pass have the same limits. -/
inductive Compacts (v : Store δ) (target passBytes : Nat) : Bool → Store δ → Prop
  | idle (h : ¬v.Called target passBytes) : Compacts v target passBytes false v
  | pass {u w : Store δ} (h : v.Called target passBytes)
      (hrun : Volume.compact passBytes v = (.ok true, u))
      (hrest : ReflTransGen (Answers target passBytes) u w) : Compacts v target passBytes true w

theorem compactAll_answers (spare : Nat) (v : Store δ) : Ends (compactAll spare target passBytes) v
    (fun _ w => ReflTransGen (Answers target passBytes) v w) Any := by
  induction spare generalizing v with
  | zero => exact ends_run.mono (fun _ _ hrun => .single ⟨_, hrun⟩) fun _ _ hf => hf
  | succ spare ih =>
    unfold compactAll
    refine ends_run.bind (fun moved u hrun => ?_) fun _ _ hf => hf
    cases moved with
    | false => exact ends_pure.2 (.single ⟨_, hrun⟩)
    | true =>
      refine (ih u).discard.bind (fun _ w hw => ends_pure.2 (.head ⟨_, hrun⟩ hw)) fun _ _ hf => hf

theorem not_called_of_dense {rate : Nat} (h : v.engine.occupancy.fillRate = .ok rate)
    (hle : target ≤ rate) : ¬v.Called target passBytes := by
  rintro ⟨⟨rate', h', hlt⟩, -⟩
  obtain rfl := Except.ok.inj (h.symm.trans h')
  omega

theorem Chooses.unique {moves' : List Chunk} (h : Chooses v passBytes moves)
    (h' : Chooses v passBytes moves') : moves = moves' := by
  obtain ⟨pos, hpos, hchoose⟩ := h
  obtain ⟨pos', hpos', hchoose'⟩ := h'
  obtain rfl := Except.ok.inj (hpos.symm.trans hpos')
  exact Except.ok.inj (hchoose.symm.trans hchoose')

/-- A fragmented file of which 91 percent are in use, and which has a chunk to move. -/
structure Scattered (v : Store δ) (compactBelow : Nat) : Prop where
  compactBelow_eq : v.engine.settings.compactBelow = compactBelow
  removed : v.records.removed = []
  reuse : v.engine.reuse = true
  fragmented : v.engine.occupancy.fragmented = true
  rate : v.engine.occupancy.fillRate = .ok 91
  movable : ∃ c moves, Chooses v v.engine.settings.passBytes (c :: moves)

variable (hremoved : v.records.removed = []) (hreuse : v.engine.reuse = true)
  (hwrite : v.engine.readOnly = false)
include hremoved hreuse hwrite

/-- With nothing removed a compaction is a pass, if the file is sparse. -/
theorem compact_compacts (target passBytes : Nat) :
    Ends (compact target passBytes) v (Compacts v target passBytes) Any := by
  unfold compact
  rw [ends_bind, ends_get]
  dsimp only
  rw [hwrite, hreuse, if_neg (by decide), ends_bind]
  refine ends_of_checked fun rate hrate => ?_
  have hrate : v.engine.occupancy.fillRate = .ok rate := by
    rwa [Catalog.removedBlocks, hremoved] at hrate
  split
  · next hdense => exact ends_pure.2 (.idle (not_called_of_dense hrate hdense))
  next hsparse =>
  rw [if_pos (by rw [hremoved]; rfl)]
  refine compact_stages.run.mono ?_ fun _ _ hf => hf
  rintro moved w ⟨hrun, ⟨rfl, hnone, rfl⟩ | ⟨rfl, c, moves, hsome, -⟩⟩
  · refine .idle ?_
    rintro ⟨-, c, moves, hsome⟩
    exact List.cons_ne_nil _ _ (hnone.unique hsome).symm
  · exact .pass ⟨⟨rate, hrate, Nat.lt_of_not_le hsparse⟩, c, moves, hsome⟩ hrun .refl

theorem compactAll_compacts (spare target passBytes : Nat) :
    Ends (compactAll spare target passBytes) v (Compacts v target passBytes) Any := by
  have hfirst := compact_compacts hremoved hreuse hwrite target passBytes
  cases spare with
  | zero => exact hfirst
  | succ spare =>
    unfold compactAll
    refine hfirst.bind (fun moved u hu => ?_) fun _ _ hf => hf
    cases hu with
    | idle h => exact ends_pure.2 (.idle h)
    | pass h hrun hrest =>
      refine (compactAll_answers spare u).discard.bind (fun _ w hw => ?_) fun _ _ hf => hf
      exact ends_pure.2 (.pass h hrun (hrest.trans hw))

/-- A fragmented file that is not sparse is left alone. -/
theorem maintain_compacts (spare : Nat) : Ends (maintain spare) v
    (Compacts v v.engine.settings.compactBelow v.engine.settings.passBytes) Any := by
  unfold maintain
  rw [ends_bind, ends_get]
  dsimp only
  rw [hwrite, if_neg (by decide), ends_bind]
  refine ends_of_checked fun rate hrate => ?_
  split
  · next hdense =>
    rw [Bool.and_eq_true, decide_eq_true_eq] at hdense
    exact ends_pure.2 (.idle (not_called_of_dense hrate hdense.1))
  · exact compactAll_compacts hremoved hreuse hwrite spare _ _

end Store

namespace Session

open Store

variable {δ : Type} [Device δ] [Lawful δ] {allowed : Request → Prop} {s : Session δ} {spare : Nat}

/-- Maintenance of a store without pending removals has an answer. It runs a pass if the file is
sparse and there is a chunk to move, and else leaves the store as it is; whether the file is
fragmented makes no difference. -/
theorem maintain_answers (hfails : ¬Lawful.fails δ) (h : Reachable allowed s)
    (hremoved : s.store.records.removed = []) (hreuse : s.store.engine.reuse = true)
    (hfit : (Request.maintain spare).Fits s.store) :
    ∃ moved w, Store.maintain spare s.store = (.ok moved, w) ∧
      s.store.Compacts s.store.engine.settings.compactBelow s.store.engine.settings.passBytes
        moved w := by
  obtain ⟨hn, m, E, hcons⟩ := h.known
  have hanswers := (maintainToCommit_ends hcons hn hfit).finish
  rw [finish_maintainToCommit] at hanswers
  have hcompacts := maintain_compacts hremoved hreuse (Engine.readOnly_eq hcons.shows) spare
  obtain ⟨moved, w, hrun, -, hw⟩ := ((hanswers.and hcompacts).mono (fun _ _ h => h)
    fun _ _ hf => hfails hf.1.1).total
  exact ⟨moved, w, hrun, hw⟩

/-- Chunks of one block and of nine blocks stand by turns. All of the small ones are removed, and two
chunks that fit nowhere among the others go to the end. -/
def scattering : List Sketch.Step :=
  (List.range 9).flatMap (fun _ => [.zeros 10, .zeros 36000]) ++
    (List.range 9).map (fun i => .remove (2 * i + 1).toUInt32) ++ [.commit, .zeros 5000, .zeros 5000]

theorem exists_scattered {below : Nat} (hbelow : below = 90 ∨ below = 95) :
    ∃ s : Session Memory, Reachable (fun _ => True) s ∧ (Request.maintain 0).Fits s.store ∧
      s.store.Scattered below := by
  have husable : Settings.Usable { compactBelow := below } :=
    ⟨by rcases hbelow with rfl | rfl <;> rfl, by rcases hbelow with rfl | rfl <;> decide⟩
  have hforecast : ∃ f ∈ Forecast.run Bytes.limit scattering ⟨.blank { compactBelow := below }, {}⟩,
      f.sketch.Spacious Bytes.limit ∧ f.sketch.outline.settings.compactBelow = below ∧
        f.sketch.records.removed = [] ∧ f.sketch.outline.reuse = true ∧
        f.sketch.outline.occupancy.fragmented = true ∧
        f.sketch.outline.occupancy.fillRate = .ok 91 ∧
        f.sketch.Moves headerBytes f.sketch.outline.settings.passBytes := by
    rcases hbelow with rfl | rfl <;> decide +kernel
  obtain ⟨s, hs, -, hspacious, hbelow, hremoved, hreuse, hfragmented, hrate, hmoves⟩ :=
    exists_in_memory husable hforecast
  exact ⟨s, hs.mono fun _ _ => trivial, spacious_of_sketch (Nat.le_refl _) hspacious, hbelow,
    hremoved, hreuse, hfragmented, hrate, exists_chooses hmoves⟩

/-- It is the limit that decides whether the chunks of a fragmented file are moved. -/
theorem maintain_answers_scattered : ∃ s t : Session Memory,
    (Reachable (fun _ => True) s ∧ s.store.Scattered 90 ∧
      Store.maintain 0 s.store = (.ok false, s.store)) ∧
    Reachable (fun _ => True) t ∧ t.store.Scattered 95 ∧ ∃ u w,
      Store.maintain 0 t.store = (.ok true, w) ∧
        Volume.compact t.store.engine.settings.passBytes t.store = (.ok true, u) := by
  obtain ⟨s, hs, hsfit, hscattered⟩ := exists_scattered (.inl rfl)
  obtain ⟨t, ht, htfit, htscattered⟩ := exists_scattered (.inr rfl)
  refine ⟨s, t, ⟨hs, hscattered, ?_⟩, ht, htscattered, ?_⟩
  · obtain ⟨moved, w, hrun, hcompacts⟩ :=
      maintain_answers (fun h => h) hs hscattered.removed hscattered.reuse hsfit
    cases hcompacts with
    | idle => exact hrun
    | pass h =>
      refine absurd h (not_called_of_dense hscattered.rate ?_)
      rw [hscattered.compactBelow_eq]
      decide
  · obtain ⟨moved, w, hrun, hcompacts⟩ :=
      maintain_answers (fun h => h) ht htscattered.removed htscattered.reuse htfit
    cases hcompacts with
    | idle h =>
      refine absurd ⟨⟨91, htscattered.rate, ?_⟩, htscattered.movable⟩ h
      rw [htscattered.compactBelow_eq]
      decide
    | pass _ hpass => exact ⟨_, w, hrun, hpass⟩

end Session

end BlockStore
