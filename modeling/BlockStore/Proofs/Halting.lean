import BlockStore.Proofs.Action

namespace BlockStore

/-- An action that may halt on its way: it has a result, or leaves the rest to be done. -/
structure Halting (σ α : Type) where
  run : Action σ (α ⊕ Action σ α)

namespace Halting

open BlockStore.Action

variable {σ α β : Type}

/-- All of the action, whether it halts on its way or not. -/
def finish (p : Halting σ α) : Action σ α := do
  match ← p.run with
  | .inl a => return a
  | .inr rest => rest

/-- Whether the action, run from `s`, gets as far as the halt. -/
def halts (p : Halting σ α) (s : σ) : Bool :=
  match (p.run s).1 with
  | .ok (.inr _) => true
  | _ => false

/-- An action without a halt. -/
def through (act : Action σ α) : Halting σ α := ⟨return .inl (← act)⟩

/-- An action that halts once it has answered. -/
def upTo (act : Action σ α) : Halting σ α := ⟨do
  let a ← act
  return .inr (pure a)⟩

instance : Monad (Halting σ) where
  pure a := through (pure a)
  bind p next := ⟨do
    match ← p.run with
    | .inl a => (next a).run
    | .inr rest => return .inr (do (next (← rest)).finish)⟩

instance : MonadLift (Action σ) (Halting σ) := ⟨through⟩

variable {act : Action σ α} {p : Halting σ α} {next : α → Halting σ β} {s : σ}

@[simp] theorem finish_pure (a : α) : (pure a : Halting σ α).finish = pure a := rfl

@[simp] theorem finish_through (act : Action σ α) : (through act).finish = act := by
  simp only [finish, through, bind_assoc, pure_bind, bind_pure]

@[simp] theorem finish_get : (get : Halting σ σ).finish = get := finish_through _

@[simp] theorem finish_checked (c : Checked α) : (liftM c : Halting σ α).finish = liftM c :=
  finish_through _

@[simp] theorem finish_upTo (act : Action σ α) : (upTo act).finish = act := by
  simp only [finish, upTo, bind_assoc, pure_bind, bind_pure]

/-- The halt makes no difference to what is done in the end. -/
@[simp] theorem finish_bind (p : Halting σ α) (next : α → Halting σ β) :
    (p >>= next).finish = (do (next (← p.finish)).finish) := by
  change (p.run >>= _) >>= _ = (p.run >>= _) >>= _
  rw [bind_assoc, bind_assoc]
  congr 1
  funext r
  cases r with
  | inl a => simp only [finish, pure_bind]
  | inr rest => simp only [pure_bind]

@[simp] theorem finish_discard (p : Halting σ α) : (discard p).finish = discard p.finish :=
  (finish_bind p fun _ => pure PUnit.unit).trans (map_eq_pure_bind _ p.finish).symm

@[simp] theorem finish_ite {c : Prop} [Decidable c] (p q : Halting σ α) :
    (if c then p else q).finish = if c then p.finish else q.finish := apply_ite finish ..

theorem halts_through (act : Action σ α) (s : σ) : (through act).halts s = false := by
  simp only [halts, through, bind_run]
  rcases act s with ⟨_ | _, t⟩ <;> rfl

variable {Q Q' : Bool → α → σ → Prop} {E E' : Bool → Failure → σ → Prop}

/-- Run from `s`, the action ends well as `Q` allows, or fails as `E` does; what these say may depend
on whether it has got as far as its halt. -/
def Ends (p : Halting σ α) (s : σ) (Q : Bool → α → σ → Prop) (E : Bool → Failure → σ → Prop) :
    Prop :=
  Action.Ends p.run s (fun r t => match r with
    | .inl a => Q false a t
    | .inr rest => Action.Ends rest t (Q true) (E true)) (E false)

/-- The whole action ends as the case is. -/
theorem Ends.finish (h : p.Ends s Q E) :
    Action.Ends p.finish s (Q (p.halts s)) (E (p.halts s)) := by
  rw [Ends, ends_iff] at h
  rw [Halting.finish, ends_iff, bind_run, halts]
  rcases hrun : p.run s with ⟨f | a | rest, t⟩
  · rw [hrun] at h
    exact h
  · rw [hrun] at h
    exact h
  · rw [hrun] at h
    exact ends_iff.1 h

theorem Ends.mono (h : p.Ends s Q' E') (hq : ∀ b a t, Q' b a t → Q b a t)
    (he : ∀ b f t, E' b f t → E b f t) : p.Ends s Q E := by
  refine Action.Ends.mono h (fun r t hr => ?_) (he false)
  cases r with
  | inl a => exact hq false a t hr
  | inr rest => exact hr.mono (hq true) (he true)

/-- The run itself may be used about the state it ends in. -/
theorem Ends.of_run (h : p.Ends s Q E) :
    p.Ends s (fun b a t => p.finish s = (.ok a, t) ∧ Q b a t) E := by
  refine (Action.Ends.run h).mono (fun r t hr => ?_) fun _ _ hf => hf
  obtain ⟨hrun, hr⟩ := hr
  cases r with
  | inl a => exact ⟨by rw [Halting.finish, bind_run, hrun]; rfl, hr⟩
  | inr rest =>
    refine hr.run.mono (fun a u hu => ⟨?_, hu.2⟩) fun _ _ hf => hf
    rw [Halting.finish, bind_run, hrun]
    exact hu.1

theorem ends_pure {a : α} : (pure a : Halting σ α).Ends s Q E ↔ Q false a s := ends_iff

theorem ends_through : (through act).Ends s Q E ↔ Action.Ends act s (Q false) (E false) := by
  rw [Ends, through, Action.ends_bind]
  simp only [Action.ends_pure]

theorem ends_upTo : (upTo act).Ends s Q E ↔ Action.Ends act s (Q true) (E false) := by
  rw [Ends, upTo, Action.ends_bind]
  simp only [Action.ends_pure]

theorem ends_bind {Q : Bool → β → σ → Prop} : (p >>= next).Ends s Q E ↔
    p.Ends s (fun halted a t => match halted with
      | false => (next a).Ends t Q E
      | true => Action.Ends (next a).finish t (Q true) (E true)) E := by
  rw [Ends, Ends]
  change Action.Ends (p.run >>= _) s _ _ ↔ _
  rw [Action.ends_bind]
  constructor
  · intro h
    refine h.mono (fun r t hr => ?_) fun _ _ h => h
    cases r with
    | inl a => exact hr
    | inr rest => exact Action.ends_bind.1 (ends_iff.1 hr)
  · intro h
    refine h.mono (fun r t hr => ?_) fun _ _ h => h
    cases r with
    | inl a => exact hr
    | inr rest => exact ends_iff.2 (Action.ends_bind.2 hr)

theorem ends_discard {Q : Bool → PUnit → σ → Prop} :
    (discard p).Ends s Q E ↔ p.Ends s (fun b _ t => Q b ⟨⟩ t) E := by
  change Ends (p >>= fun _ => pure PUnit.unit) s Q E ↔ _
  refine ends_bind.trans ⟨fun h => ?_, fun h => ?_⟩
  · refine h.mono (fun b a t hb => ?_) fun _ _ _ hf => hf
    cases b with
    | false => exact ends_pure.1 hb
    | true => exact Action.ends_pure.1 hb
  · refine h.mono (fun b a t hb => ?_) fun _ _ _ hf => hf
    cases b with
    | false => exact ends_pure.2 hb
    | true => exact Action.ends_pure.2 hb

theorem ends_through_bind {Q : Bool → β → σ → Prop} : (through act >>= next).Ends s Q E ↔
    Action.Ends act s (fun a t => (next a).Ends t Q E) (E false) := by
  rw [ends_bind, ends_through]

theorem ends_get_bind {next : σ → Halting σ β} {Q : Bool → β → σ → Prop} :
    (get >>= next).Ends s Q E ↔ (next s).Ends s Q E := ends_through_bind.trans ends_get

theorem ends_checked_bind {c : Checked α} {a : α} (h : c = .ok a) {Q : Bool → β → σ → Prop} :
    ((liftM c : Halting σ α) >>= next).Ends s Q E ↔ (next a).Ends s Q E :=
  ends_through_bind.trans (ends_checked h)

theorem ends_upTo_bind {Q : Bool → β → σ → Prop} : (upTo act >>= next).Ends s Q E ↔
    Action.Ends act s (fun a t => Action.Ends (next a).finish t (Q true) (E true)) (E false) := by
  rw [ends_bind, ends_upTo]

end Halting

end BlockStore
