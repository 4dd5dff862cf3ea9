import BlockStore.Proofs.Constancy
import BlockStore.Proofs.Reopening

namespace BlockStore

open BlockStore.Action Device

namespace Store

variable {δ α β : Type} {v : Store δ} {act : Action (Store δ) α}

/-- The store as it would be if the flag for changes were `flag`. -/
def marked (v : Store δ) (flag : Bool) : Store δ :=
  { v with records := { v.records with dirty := flag } }

theorem marked_of_dirty {flag : Bool} (h : v.records.dirty = flag) : v.marked flag = v := by
  subst h
  rfl

/-- Whether changes are pending makes no difference to the action, but for that flag. -/
def Blind (act : Action (Store δ) α) : Prop :=
  ∀ v flag, (act (v.marked flag)).1 = (act v).1 ∧
    ∃ flag', (act (v.marked flag)).2 = (act v).2.marked flag'

theorem blind_pure (a : α) : Blind (pure a : Action (Store δ) α) := fun _ flag => ⟨rfl, flag, rfl⟩

theorem blind_throw (f : Failure) : Blind (throw f : Action (Store δ) α) :=
  fun _ flag => ⟨rfl, flag, rfl⟩

theorem blind_refuse (e : StoreError) : Blind (refuse e : Action (Store δ) α) := blind_throw _

theorem blind_checked (c : Checked α) : Blind (liftM c : Action (Store δ) α) := fun _ flag => by
  cases c <;> exact ⟨rfl, flag, rfl⟩

theorem blind_onEngine (act : Action (Engine δ) α) : Blind (Volume.onEngine act) :=
  fun _ flag => ⟨rfl, flag, rfl⟩

/-- What is done to the records is done to them whatever the flag, or sets it. -/
theorem blind_modify {f : Store δ → Store δ}
    (h : ∀ v flag, ∃ flag', f (v.marked flag) = (f v).marked flag') :
    Blind (modify f : Action (Store δ) PUnit) := fun v flag => ⟨rfl, h v flag⟩

namespace Blind

theorem bind {next : α → Action (Store δ) β} (h : Blind act) (hn : ∀ a, Blind (next a)) :
    Blind (act >>= next) := by
  intro v flag
  obtain ⟨hanswer, flag₁, hstate⟩ := h v flag
  rw [bind_run, bind_run]
  rcases hv : act v with ⟨r, t⟩
  rcases hm : act (v.marked flag) with ⟨r', t'⟩
  rw [hv, hm] at hanswer hstate
  dsimp only at hanswer hstate
  subst hanswer hstate
  cases r' with
  | error f => exact ⟨rfl, flag₁, rfl⟩
  | ok a => exact hn a t flag₁

/-- What is read off the store may be anything but the flag. -/
theorem get_bind {next : Store δ → Action (Store δ) β}
    (hread : ∀ v flag, next (v.marked flag) = next v) (hn : ∀ v, Blind (next v)) :
    Blind (get >>= next) := by
  intro v flag
  have hrun (u : Store δ) : (get >>= next) u = next u u := rfl
  rw [hrun, hrun, hread]
  exact hn v v flag

theorem discard (h : Blind act) : Blind (discard act) := h.bind fun _ => blind_pure _

theorem attempt (h : Blind act) : Blind act.attempt := by
  intro v flag
  obtain ⟨hanswer, flag₁, hstate⟩ := h v flag
  rw [Action.attempt, Action.attempt]
  rcases hv : act v with ⟨r, t⟩
  rcases hm : act (v.marked flag) with ⟨r', t'⟩
  rw [hv, hm] at hanswer hstate
  dsimp only at hanswer hstate
  subst hanswer hstate
  rcases r' with (f | e) | a <;> exact ⟨rfl, flag₁, rfl⟩

theorem ite {p : Prop} [Decidable p] {act' : Action (Store δ) α} (h : Blind act)
    (h' : Blind act') : Blind (if p then act else act') := by
  split
  · exact h
  · exact h'

theorem when {p : Prop} [Decidable p] {act : Action (Store δ) PUnit}
    {next : PUnit → Action (Store δ) α} (h : Blind act) (hn : ∀ a, Blind (next a)) :
    Blind (if p then act >>= next else next ⟨⟩) := .ite (h.bind hn) (hn _)

theorem mapM {γ : Type} {xs : List β} {f : β → Action (Store δ) γ} (h : ∀ x, Blind (f x)) :
    Blind (xs.mapM f) := by
  have loop (done : List γ) : Blind (List.mapM.loop f xs done) := by
    induction xs generalizing done with
    | nil => exact blind_pure _
    | cons x xs ih => exact (h x).bind fun y => ih (y :: done)
  exact loop []

end Blind

theorem guardWritable_blind [Device δ] : Blind (guardWritable : Action (Store δ) Unit) :=
  .get_bind (fun _ _ => rfl) fun _ => .ite (blind_refuse _) (blind_pure _)

theorem takeId_blind : Blind (takeId : Action (Store δ) UInt32) := by
  intro v flag
  have hv := takeId_cases (v := v)
  have hm := takeId_cases (v := v.marked flag)
  rcases hrun : takeId v with ⟨f | id, w⟩ <;> rcases hrun' : takeId (v.marked flag) with ⟨f' | id', w'⟩
  · obtain ⟨-, rfl, rfl⟩ := hv.error _ _ hrun
    obtain ⟨-, rfl, rfl⟩ := hm.error _ _ hrun'
    exact ⟨rfl, flag, rfl⟩
  · exact absurd (hm.ok _ _ hrun').1 (Nat.not_lt.2 (hv.error _ _ hrun).1)
  · exact absurd (hv.ok _ _ hrun).1 (Nat.not_lt.2 (hm.error _ _ hrun').1)
  · obtain ⟨-, rfl, rfl⟩ := hv.ok _ _ hrun
    obtain ⟨-, rfl, rfl⟩ := hm.ok _ _ hrun'
    exact ⟨rfl, flag, rfl⟩

section

variable [Device δ]

theorem write_blind (payload : ByteArray) : Blind (write payload : Action (Store δ) Chunk) := by
  unfold write
  refine .bind guardWritable_blind fun _ => .bind takeId_blind fun id => ?_
  refine .get_bind (fun _ _ => rfl) fun v => .bind (blind_checked _) fun version => ?_
  refine .bind (blind_onEngine _) fun c => .bind (blind_modify fun v flag => ?_) fun _ => blind_pure _
  exact ⟨true, rfl⟩

theorem read_blind (id : UInt32) : Blind (read id : Action (Store δ) ByteArray) := by
  unfold read
  refine .get_bind (fun _ _ => rfl) fun v => ?_
  split
  · exact blind_refuse _
  · exact .bind (blind_onEngine _) fun _ => blind_pure _

theorem remove_blind (id : UInt32) : Blind (remove id : Action (Store δ) Unit) := by
  unfold remove
  refine .bind guardWritable_blind fun _ => .get_bind (fun _ _ => rfl) fun v => ?_
  split
  · exact blind_refuse _
  · exact blind_modify fun v flag => ⟨true, rfl⟩

theorem commit_blind : Blind (commit : Action (Store δ) UInt64) := by
  unfold commit
  refine .bind guardWritable_blind fun _ => .bind takeId_blind fun id => ?_
  refine .get_bind (fun _ _ => rfl) fun v => .bind (blind_checked _) fun version => ?_
  refine .bind (blind_onEngine _) fun root => .bind (blind_modify fun u flag => ?_) fun _ => ?_
  · exact ⟨false, rfl⟩
  · exact .bind (blind_onEngine _) fun _ => blind_pure _

theorem register_run (c : Chunk) (v : Store δ) : register c v =
    if v.records.root.any (·.id = c.id) then (Volume.onEngine do
        Engine.sync
        Engine.write 0 (Superblock.naming v.records.version c).toBytes
        Engine.sync) { v with records := { v.records with root := some c } }
    else if (v.records.data.find? c.id).isSome then
      (.ok ⟨⟩, { v with records := { v.records with
        data := v.records.data.insert c, dirty := true } })
    else (.ok ⟨⟩, v) := by
  unfold register
  change (if v.records.root.any (·.id = c.id) = true then _ else _ : Action (Store δ) Unit) v = _
  split
  · rfl
  · split <;> rfl

theorem register_blind (c : Chunk) : Blind (register c : Action (Store δ) Unit) := by
  intro v flag
  have hmarked := register_run c (v.marked flag)
  change register c (v.marked flag) = if v.records.root.any (·.id = c.id) then _ else
    if (v.records.data.find? c.id).isSome then _ else _ at hmarked
  rw [hmarked, register_run c v]
  split
  · exact blind_onEngine _ { v with records := { v.records with root := some c } } flag
  · split
    · exact ⟨rfl, true, rfl⟩
    · exact ⟨rfl, flag, rfl⟩

theorem move_blind (id : UInt32) (r : Reserved) :
    Blind (Volume.move id r : Action (Store δ) (Option Chunk)) := by
  unfold Volume.move
  refine .get_bind (fun _ _ => rfl) fun v => ?_
  split
  · exact .bind (blind_onEngine _) fun moved => .bind (register_blind _) fun _ => blind_pure _
  · exact blind_pure _

theorem moveBelow_blind (id : UInt32) (boundary : Nat) :
    Blind (Volume.moveBelow id boundary : Action (Store δ) Bool) := by
  unfold Volume.moveBelow
  refine .get_bind (fun _ _ => rfl) fun v => ?_
  split
  · refine .ite (blind_pure _) (.get_bind (fun _ _ => rfl) fun v => ?_)
    refine .bind (blind_checked _) fun target => .ite (blind_pure _) ?_
    refine .bind (move_blind _ _) fun moved => ?_
    split
    · refine .bind (blind_checked _) fun stop => .when (blind_throw _) fun _ => blind_pure _
    · exact blind_pure _
  · exact blind_pure _

theorem storeReserving_blind (r : Reserved) :
    Blind (Volume.storeReserving r : Action (Store δ) Unit) := by
  unfold Volume.storeReserving
  refine .bind (blind_modify fun v flag => ⟨flag, rfl⟩) fun _ => ?_
  refine .bind (.attempt commit_blind.discard) fun stored => ?_
  refine .bind (blind_modify fun v flag => ⟨flag, rfl⟩) fun _ => ?_
  cases stored with
  | error e => exact blind_refuse _
  | ok => exact blind_pure _

theorem returnLast_blind (boundary : Nat) (movedLate : Bool) :
    Blind (Volume.returnLast boundary movedLate : Action (Store δ) Unit) := by
  unfold Volume.returnLast
  refine .get_bind (fun _ _ => rfl) fun v => ?_
  have hstore (movedLast : Bool) : Blind (if (movedLast || movedLate) = true then
      Volume.storeReserving (.above boundary) else pure ⟨⟩ : Action (Store δ) PUnit) :=
    .ite (storeReserving_blind _) (blind_pure _)
  cases v.root? with
  | none => exact .bind (blind_pure _) hstore
  | some last => exact .bind (moveBelow_blind _ _) hstore

theorem returnRoot_blind (root : Chunk) (inside : Bool) (oldStop newStop : Nat) :
    Blind (Volume.returnRoot root inside oldStop newStop : Action (Store δ) Unit) := by
  rw [Volume.returnRoot_eq]
  refine .bind (moveBelow_blind _ _) fun moved => .bind (storeReserving_blind _) fun _ => ?_
  refine .bind (blind_onEngine _) fun _ => ?_
  exact .ite (.bind (blind_pure _) (returnLast_blind _))
    (.bind (moveBelow_blind _ _) (returnLast_blind _))

theorem runPass_blind (leftmost : Nat) (moves : List Chunk) :
    Blind (Volume.runPass leftmost moves : Action (Store δ) Unit) := by
  unfold Volume.runPass
  refine .bind (blind_onEngine _) fun _ => .get_bind (fun _ _ => rfl) fun v => ?_
  refine .bind (.mapM fun c => .bind (move_blind _ _) fun moved => blind_pure _) fun evacuated => ?_
  refine .bind (storeReserving_blind _) fun _ => .bind (blind_onEngine _) fun _ => ?_
  refine .get_bind (fun _ _ => rfl) fun v₁ => .get_bind (fun _ _ => rfl) fun v₂ => ?_
  refine .bind (.mapM fun c => move_blind _ _) fun returned => ?_
  refine .ite ?_ (blind_onEngine _)
  split
  · exact .bind (returnRoot_blind _ _ _ _) fun _ => blind_onEngine _
  · exact blind_onEngine _

theorem pass_blind (passBytes : Nat) :
    Blind (Volume.compact passBytes : Action (Store δ) Bool) := by
  unfold Volume.compact
  refine .get_bind (fun _ _ => rfl) fun v => ?_
  refine .bind (blind_checked _) fun first => .bind (blind_checked _) fun moves => ?_
  cases moves with
  | nil => exact blind_pure _
  | cons c moves => exact .bind (runPass_blind _ _) fun _ => blind_pure _

theorem compact_blind (target passBytes : Nat) :
    Blind (compact target passBytes : Action (Store δ) Bool) := by
  unfold compact
  refine .get_bind (fun _ _ => rfl) fun v => ?_
  refine .ite (blind_pure _) (.bind (blind_checked _) fun rate => ?_)
  refine .ite (blind_pure _) (.ite (pass_blind _) ?_)
  exact .bind commit_blind.discard fun _ => pass_blind _

theorem compactAll_blind (spare target passBytes : Nat) :
    Blind (compactAll spare target passBytes : Action (Store δ) Bool) := by
  induction spare with
  | zero => exact compact_blind target passBytes
  | succ spare ih =>
    refine .bind (compact_blind target passBytes) fun going => ?_
    exact .ite (.bind ih.discard fun _ => blind_pure _) (blind_pure _)

theorem maintain_blind (spare : Nat) : Blind (maintain spare : Action (Store δ) Bool) := by
  unfold maintain
  refine .get_bind (fun _ _ => rfl) fun v => ?_
  refine .ite (blind_pure _) (.bind (blind_checked _) fun rate => ?_)
  exact .ite (blind_pure _) (compactAll_blind _ _ _)

end

end Store

namespace Request

open Store

variable {δ : Type} [Device δ] {q : Request}

/-- Only closing a store asks whether changes are pending. -/
theorem run_blind (hq : q.Stays) : Blind (q.run : Action (Store δ) Reply) := by
  cases q with
  | write payload => exact .bind (write_blind payload) fun c => blind_pure _
  | read id => exact .bind (read_blind id).attempt fun data => blind_pure _
  | remove id => exact .bind (remove_blind id).attempt fun outcome => blind_pure _
  | commit => exact .bind commit_blind.discard fun _ => blind_pure _
  | compact target passBytes =>
    exact .bind (compact_blind target passBytes).discard fun _ => blind_pure _
  | compactAll spare target passBytes =>
    exact .bind (compactAll_blind spare target passBytes).discard fun _ => blind_pure _
  | maintain spare => exact .bind (maintain_blind spare).discard fun _ => blind_pure _
  | reopen settings => exact hq.elim
  | abandon settings => exact hq.elim

end Request

end BlockStore
