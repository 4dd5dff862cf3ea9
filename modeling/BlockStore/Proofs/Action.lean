import BlockStore.Action
import Mathlib

namespace BlockStore.Action

variable {σ τ α β : Type}

/-- Run from `s`, `act` ends well in a state that `Q` allows, or fails in one that `E` allows. -/
structure Ends (act : Action σ α) (s : σ) (Q : α → σ → Prop) (E : Failure → σ → Prop) : Prop where
  ok : ∀ a t, act s = (.ok a, t) → Q a t
  error : ∀ f t, act s = (.error f, t) → E f t

variable {act : Action σ α} {s : σ} {Q Q' : α → σ → Prop} {E E' : Failure → σ → Prop}

theorem ends_iff : Ends act s Q E ↔ match act s with
    | (.ok a, t) => Q a t
    | (.error f, t) => E f t := by
  constructor
  · intro h
    split
    · next a t ha => exact h.ok a t ha
    · next f t ha => exact h.error f t ha
  · intro h
    constructor
    · intro a t ha
      rwa [ha] at h
    · intro f t ha
      rwa [ha] at h

theorem Ends.mono (h : Ends act s Q' E') (hq : ∀ a t, Q' a t → Q a t) (he : ∀ f t, E' f t → E f t) :
    Ends act s Q E :=
  ⟨fun a t ha => hq a t (h.ok a t ha), fun f t ha => he f t (h.error f t ha)⟩

theorem Ends.and (h : Ends act s Q E) (h' : Ends act s Q' E') :
    Ends act s (fun a t => Q a t ∧ Q' a t) (fun f t => E f t ∧ E' f t) :=
  ⟨fun a t ha => ⟨h.ok a t ha, h'.ok a t ha⟩, fun f t ha => ⟨h.error f t ha, h'.error f t ha⟩⟩

/-- The run itself may be used about the state it ends in. -/
theorem Ends.run (h : Ends act s Q E) :
    Ends act s (fun a t => act s = (.ok a, t) ∧ Q a t) E :=
  ⟨fun a t ha => ⟨ha, h.ok a t ha⟩, h.error⟩

/-- An action without failures has a result. -/
theorem Ends.total (h : Ends act s Q fun _ _ => False) : ∃ a t, act s = (.ok a, t) ∧ Q a t := by
  rcases ha : act s with ⟨f | a, t⟩
  · exact (h.error f t ha).elim
  · exact ⟨a, t, rfl, h.ok a t ha⟩

theorem Ends.of_run {t : σ} {a : α} (h : act s = (.ok a, t)) (hq : Q a t) : Ends act s Q E := by
  refine ends_iff.2 ?_
  rwa [h]

theorem Ends.eq_run {t : σ} {a : α}
    (h : Ends act s (fun x u => x = a ∧ u = t) fun _ _ => False) : act s = (.ok a, t) := by
  obtain ⟨_, _, hrun, rfl, rfl⟩ := h.total
  exact hrun

theorem ends_pure {a : α} : Ends (pure a) s Q E ↔ Q a s := ends_iff

theorem bind_run (act : Action σ α) (next : α → Action σ β) (s : σ) :
    (act >>= next) s = match act s with
      | (.ok a, t) => next a t
      | (.error f, t) => (.error f, t) := by
  change (ExceptT.bindCont next (act s).1 : StateM σ _) (act s).2 = _
  rcases act s with ⟨f | a, t⟩ <;> rfl

theorem ends_bind {next : α → Action σ β} {Q : β → σ → Prop} :
    Ends (act >>= next) s Q E ↔ Ends act s (fun a t => Ends (next a) t Q E) E := by
  rw [ends_iff, ends_iff, bind_run]
  rcases act s with ⟨f | a, t⟩
  · rfl
  · exact ends_iff.symm

theorem Ends.bind {next : α → Action σ β} {Q : β → σ → Prop} (h : Ends act s Q' E')
    (hq : ∀ a t, Q' a t → Ends (next a) t Q E) (he : ∀ f t, E' f t → E f t) :
    Ends (act >>= next) s Q E := ends_bind.2 (h.mono hq he)

theorem ends_map {f : α → β} {Q : β → σ → Prop} :
    Ends (f <$> act) s Q E ↔ Ends act s (fun a t => Q (f a) t) E := by
  simp only [map_eq_pure_bind, ends_bind, ends_pure]

theorem ends_discard {Q : PUnit → σ → Prop} :
    Ends (discard act) s Q E ↔ Ends act s (fun _ t => Q ⟨⟩ t) E := ends_map

theorem Ends.discard {P : σ → Prop} (h : Ends act s (fun _ => P) E) :
    Ends (discard act) s (fun _ => P) E := ends_discard.2 h

theorem ends_get {Q : σ → σ → Prop} : Ends (get : Action σ σ) s Q E ↔ Q s s := ends_iff

theorem ends_modify {f : σ → σ} {Q : PUnit → σ → Prop} :
    Ends (modify f : Action σ PUnit) s Q E ↔ Q ⟨⟩ (f s) := ends_iff

theorem ends_throw {f : Failure} : Ends (throw f : Action σ α) s Q E ↔ E f s := ends_iff

theorem ends_refuse {e : StoreError} : Ends (refuse e : Action σ α) s Q E ↔ E (.error e) s := ends_iff

theorem ends_checked {c : Checked α} {a : α} (h : c = .ok a) :
    Ends (liftM c : Action σ α) s Q E ↔ Q a s := by
  subst h
  exact ends_iff

theorem ends_except {c : Except Failure α} {a : α} (h : c = .ok a) :
    Ends (liftM c : Action σ α) s Q E ↔ Q a s := by
  subst h
  exact ends_iff

/-- Failures of whatever kind, in whatever state. -/
def Any : Failure → σ → Prop := fun _ _ => True

theorem ends_any (h : ∀ a t, Q a t) : Ends act s Q Any := ⟨fun a t _ => h a t, fun _ _ _ => trivial⟩

theorem ends_run : Ends act s (fun a t => act s = (.ok a, t)) Any :=
  ⟨fun _ _ ha => ha, fun _ _ _ => trivial⟩

theorem ends_checked_iff {c : Checked α} : Ends (liftM c : Action σ α) s Q E ↔
    (∀ a, c = .ok a → Q a s) ∧ ∀ f, c = .error f → E (.fault f) s := by
  rw [ends_iff]
  cases c with
  | error f => exact ⟨fun h => ⟨nofun, fun _ hf => Except.error.inj hf ▸ h⟩, fun h => h.2 f rfl⟩
  | ok a => exact ⟨fun h => ⟨fun _ ha => Except.ok.inj ha ▸ h, nofun⟩, fun h => h.1 a rfl⟩

theorem ends_of_checked {c : Checked α} (h : ∀ a, c = .ok a → Q a s) :
    Ends (liftM c : Action σ α) s Q Any := ends_checked_iff.2 ⟨h, fun _ _ => trivial⟩

theorem ends_of_except {c : Except Failure α} (h : ∀ a, c = .ok a → Q a s) :
    Ends (liftM c : Action σ α) s Q Any := by
  cases c with
  | error f => exact ends_iff.2 trivial
  | ok a => exact ends_iff.2 (h a rfl)

theorem ends_attempt {Q : Except StoreError α → σ → Prop} :
    Ends act.attempt s Q E ↔ Ends act s (fun a t => Q (.ok a) t) fun f t => match f with
      | .error e => Q (.error e) t
      | .fault f => E (.fault f) t := by
  rw [ends_iff, ends_iff, attempt]
  rcases act s with ⟨(f | e) | a, t⟩ <;> rfl

theorem ends_refusing {e : StoreError} {Q : β → σ → Prop} :
    Ends (act >>= fun _ => refuse e : Action σ β) s Q Any :=
  ends_bind.2 (ends_any fun _ _ => ends_refuse.2 trivial)

/-- What is attempted succeeds, unless its error is passed on. -/
theorem Ends.attempted {next : Except StoreError α → Action σ β} {Q : β → σ → Prop}
    (h : Ends act s Q' E') (hq : ∀ a t, Q' a t → Ends (next (.ok a)) t Q Any)
    (he : ∀ e t, Ends (next (.error e)) t Q Any) : Ends (act.attempt >>= next) s Q Any := by
  rw [ends_bind, ends_attempt]
  refine h.mono hq fun f t _ => ?_
  cases f with
  | error e => exact he e t
  | fault f => trivial

theorem ends_within {get : σ → τ} {set : σ → τ → σ} {act : Action τ α} :
    Ends (within get set act) s Q E ↔
      Ends act (get s) (fun a t => Q a (set s t)) (fun f t => E f (set s t)) := by
  rw [ends_iff, ends_iff, within]
  rcases act (get s) with ⟨f | a, t⟩ <;> rfl

/-- What every step of a walk along a list keeps holds at its end. -/
theorem ends_forM {xs : List β} {f : β → Action σ PUnit} {I : List β → σ → Prop} (h : I xs s)
    (hstep : ∀ x rest t, I (x :: rest) t → Ends (f x) t (fun _ u => I rest u) E) :
    Ends (xs.forM f) s (fun _ t => I [] t) E := by
  induction xs generalizing s with
  | nil => exact ends_pure.2 h
  | cons x xs ih => exact (hstep x xs s h).bind (fun _ t ht => ih ht) fun _ _ he => he

/-- The same for a walk with results: `I` also knows those of the steps made so far. -/
theorem ends_mapM {γ : Type} {xs : List β} {f : β → Action σ γ} {I : List β → List γ → σ → Prop}
    (h : I xs [] s)
    (hstep : ∀ x rest done t, I (x :: rest) done t →
      Ends (f x) t (fun y u => I rest (done ++ [y]) u) E) :
    Ends (xs.mapM f) s (fun ys t => I [] ys t) E := by
  have loop (done : List γ) {s : σ} {xs : List β} (h : I xs done.reverse s) :
      Ends (List.mapM.loop f xs done) s (fun ys t => I [] ys t) E := by
    induction xs generalizing s done with
    | nil => exact ends_pure.2 h
    | cons x xs ih =>
      refine (hstep x xs _ s h).bind (fun y t ht => ih (y :: done) ?_) fun _ _ he => he
      rw [List.reverse_cons]
      exact ht
  exact loop [] h

end BlockStore.Action
