import BlockStore.Compaction.Pass
import BlockStore.Proofs.Action

namespace BlockStore.Volume

open BlockStore.Action

variable {δ κ : Type} [Device δ] [Keeper δ κ]

/-- The first part of a pass: the chunks leave the blocks from `low` up to `high`. -/
def evacuate (low high : Nat) (moves : List Chunk) : Action (Volume δ κ) (List Chunk) :=
  moves.mapM fun c => return (← move c.id (.between low high)).getD c

/-- The second part: those that went to `low` or behind it move once more. -/
def bringBack (low high : Nat) (evacuated : List Chunk) :
    Action (Volume δ κ) (List (Option Chunk)) :=
  (evacuated.filter (low ≤ ·.block.toNat)).mapM (move ·.id (.between low high))

/-- The last part: the root moves too, and the device is cut. -/
def settle (root? : Option Chunk) (leftmost oldStop newStop : Nat) (returned : List (Option Chunk)) :
    Action (Volume δ κ) Unit := do
  let inside := root?.all (·.block.toNat < leftmost)
  if !inside || returned.any Option.isSome then
    if let some root := root? then returnRoot root inside oldStop newStop
  onEngine do
    discard (Engine.shrink 0)
    Engine.sync

/-- The end of the return of the root: whatever has become the root leaves the blocks from `boundary`
on, and the records are stored once more if anything has moved. -/
def returnLast (boundary : Nat) (movedLate : Bool) : Action (Volume δ κ) Unit := do
  let movedLast ← match (← get).root? with
    | some last => moveBelow last.id boundary
    | none => pure false
  if movedLast || movedLate then storeReserving (.above boundary)

theorem runPass_eq (leftmost : Nat) (moves : List Chunk) :
    (runPass leftmost moves : Action (Volume δ κ) Unit) = (do
      onEngine Engine.sync
      let oldStop := (← get).engine.occupancy.stop
      let evacuated ← evacuate leftmost oldStop moves
      storeReserving (.between leftmost oldStop)
      onEngine Engine.sync
      let root? := (← get).root?
      let newStop := (← get).engine.occupancy.stop
      let returned ← bringBack oldStop newStop evacuated
      settle root? leftmost oldStop newStop returned) := rfl

theorem returnRoot_eq (root : Chunk) (inside : Bool) (oldStop newStop : Nat) :
    (returnRoot root inside oldStop newStop : Action (Volume δ κ) Unit) = (do
      let moved ← moveBelow root.id oldStop
      storeReserving (.between oldStop newStop)
      onEngine Engine.sync
      let boundary := if moved || inside then newStop else root.block.toNat
      let movedLate ← if moved then pure false else moveBelow root.id boundary
      returnLast boundary movedLate) := rfl

variable {v : Volume δ κ} {F : Failure → Volume δ κ → Prop}

/-- What every move of an evacuation keeps holds at its end, `R` being the order in which it goes. -/
theorem ends_evacuate {R : UInt32 → UInt32 → Prop} {I : List Chunk → Volume δ κ → Prop}
    {low high : Nat} {chosen : List Chunk} (hR : (chosen.map Chunk.id).Pairwise R)
    (h : I [] v) (hstep : ∀ z ∈ chosen, ∀ gone u, (∀ y ∈ gone, R y.id z.id) → I gone u →
      Ends (move z.id (.between low high)) u
        (fun out u => (out.getD z).id = z.id ∧ I (gone ++ [out.getD z]) u) F) :
    Ends (evacuate low high chosen) v
      (fun ys u => ys.map Chunk.id = chosen.map Chunk.id ∧ I ys u) F := by
  refine (ends_mapM (I := fun todo gone u => ∃ done, done ++ todo = chosen ∧
    gone.map Chunk.id = done.map Chunk.id ∧ I gone u) ⟨[], rfl, rfl, h⟩ ?_).mono ?_ fun _ _ hf => hf
  · rintro z rest gone u ⟨done, hsplit, hids, hu⟩
    rw [← hsplit, List.map_append, List.map_cons] at hR
    have hbefore (y : Chunk) (hy : y ∈ gone) : R y.id z.id :=
      (List.pairwise_append.1 hR).2.2 _ (hids ▸ List.mem_map_of_mem hy) _ List.mem_cons_self
    have hz : z ∈ chosen := hsplit ▸ List.mem_append_right _ List.mem_cons_self
    refine (hstep z hz gone u hbefore hu).bind ?_ fun _ _ hf => hf
    rintro out u' ⟨hid, hu'⟩
    refine ends_pure.2 ⟨done ++ [z], ?_, ?_, hu'⟩
    · rw [List.append_assoc]
      exact hsplit
    · rw [List.map_append, List.map_append, hids, List.map_singleton, List.map_singleton, hid]
  · rintro ys u ⟨done, hsplit, hids, hu⟩
    rw [List.append_nil] at hsplit
    exact ⟨hsplit ▸ hids, hu⟩

/-- At the end of the return no more happens than that the root moves and the records are stored. -/
theorem ends_returnLast {I Q : Volume δ κ → Prop} {boundary : Nat} (movedLate : Bool) (h : I v)
    (hmove : ∀ last, v.root? = some last → Ends (moveBelow last.id boundary) v (fun _ => I) F)
    (hstore : ∀ w, I w → Ends (storeReserving (.above boundary)) w (fun _ => Q) F)
    (hquiet : ∀ w, I w → Q w) : Ends (returnLast boundary movedLate) v (fun _ => Q) F := by
  have hlast (go : Bool) {w : Volume δ κ} (hw : I w) :
      Ends (if go then storeReserving (.above boundary) else pure ⟨⟩) w (fun _ => Q) F := by
    split
    · exact hstore w hw
    · exact ends_pure.2 (hquiet w hw)
  unfold returnLast
  rw [ends_bind, ends_get]
  cases hroot : v.root? with
  | none =>
    rw [ends_bind, ends_pure]
    exact hlast _ h
  | some last => exact (hmove last hroot).bind (fun _ _ hw => hlast _ hw) fun _ _ hf => hf

end BlockStore.Volume
