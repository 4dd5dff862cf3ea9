import BlockStore.Compaction.Candidates
import BlockStore.Proofs.Layout

namespace BlockStore

namespace Heap

variable {α : Type} {le : α → α → Bool} {items rest : Array α} {x : α}

theorem rise_perm (le : α → α → Bool) (items : Array α) (i : Nat) :
    (rise le items i).Perm items := by
  fun_induction rise le items i with
  | case1 | case3 => exact .refl _
  | case2 items i h hle ih => exact ih.trans (Array.swap_perm ..)

theorem sink_perm (le : α → α → Bool) (items : Array α) (i : Nat) :
    (sink le items i).1.Perm items := by
  fun_induction sink le items i with
  | case1 items i h hle ih => exact ih.trans (Array.swap_perm ..)
  | case2 items i h hle ih => exact ih.trans (Array.swap_perm ..)
  | case3 => exact Array.swap_perm ..
  | case4 => exact .refl _

theorem push_perm (le : α → α → Bool) (items : Array α) (x : α) :
    (push le items x).toList.Perm (x :: items.toList) := by
  refine (Array.perm_iff_toList_perm.1 (rise_perm le (items.push x) items.size)).trans ?_
  rw [Array.toList_push]
  exact List.perm_append_singleton x items.toList

theorem perm_of_pop? (h : pop? le items = some (x, rest)) :
    items.toList.Perm (x :: rest.toList) := by
  unfold pop? at h
  split at h
  · exact nomatch h
  · next last hlast =>
    have hitems : items.toList.Perm (last :: items.pop.toList) := by
      obtain ⟨init, rfl⟩ := Array.back?_eq_some_iff.1 hlast
      rw [Array.pop_push, Array.toList_push]
      exact List.perm_append_singleton last init.toList
    dsimp only at h
    split at h
    · next hpos =>
      obtain ⟨rfl, rfl⟩ := Prod.mk.inj (Option.some.inj h)
      have hsink := sink_perm le (items.pop.set 0 last hpos) 0
      have hrise := (rise_perm le (sink le (items.pop.set 0 last hpos) 0).1
        (sink le (items.pop.set 0 last hpos) 0).2).trans hsink
      refine hitems.trans (.trans ?_ ((Array.perm_iff_toList_perm.1 hrise).symm.cons _))
      obtain ⟨y, ys, hys⟩ := List.exists_cons_of_length_pos hpos
      have hfirst : items.pop[0] = y := by
        rw [← Array.getElem_toList hpos]
        simp only [hys, List.getElem_cons_zero]
      rw [Array.toList_set, hys, hfirst]
      exact .swap y last ys
    · obtain ⟨rfl, rfl⟩ := Prod.mk.inj (Option.some.inj h)
      exact hitems

end Heap

/-- The record of a chunk that no compaction has weighed. -/
def Chunk.unweighed (c : Chunk) : Chunk := { c with priority := 0 }

theorem Chunk.unweighed_eq {c : Chunk} (h : c.priority = 0) : c.unweighed = c := by
  rw [unweighed, ← h]

/-- What an unweighed record tells of a chunk but its priority. -/
theorem Chunk.of_unweighed_eq {c d : Chunk} (h : c.unweighed = d.unweighed) :
    c.id = d.id ∧ c.first = d.first ∧ c.len = d.len :=
  ⟨(congrArg Chunk.id h :), (congrArg Chunk.first h :), (congrArg Chunk.len h :)⟩

theorem Chunk.map_id_unweighed (cs : List Chunk) :
    (cs.map Chunk.unweighed).map Chunk.id = cs.map Chunk.id := by
  rw [List.map_map]
  rfl

theorem Chunk.nodup_ids_of_subperm {cs ds : List Chunk}
    (h : (ds.map Chunk.unweighed).Subperm (cs.map Chunk.unweighed))
    (hcs : (cs.map Chunk.id).Nodup) : (ds.map Chunk.id).Nodup := by
  obtain ⟨l, hperm, hl⟩ := h
  rw [← map_id_unweighed] at hcs ⊢
  exact (hperm.map Chunk.id).nodup_iff.1 (hcs.sublist (hl.map Chunk.id))

/-- The sum of the lengths. -/
def blocksOf (cs : List Chunk) : Nat := (cs.map fun c => c.len.toNat).sum

@[simp] theorem blocksOf_nil : blocksOf [] = 0 := rfl

@[simp] theorem blocksOf_cons (c : Chunk) (cs : List Chunk) :
    blocksOf (c :: cs) = c.len.toNat + blocksOf cs := by
  rw [blocksOf, List.map_cons, List.sum_cons, blocksOf]

theorem blocksOf_append (cs ds : List Chunk) : blocksOf (cs ++ ds) = blocksOf cs + blocksOf ds := by
  rw [blocksOf, List.map_append, List.sum_append, blocksOf, blocksOf]

theorem blocksOf_perm {cs ds : List Chunk} (h : cs.Perm ds) : blocksOf cs = blocksOf ds :=
  (h.map _).sum_eq

theorem blocksOf_le {cs ds : List Chunk} (h : cs.Subperm ds) : blocksOf cs ≤ blocksOf ds := by
  obtain ⟨l, hperm, hl⟩ := h
  rw [← blocksOf_perm hperm]
  exact (hl.map _).sum_le_sum fun _ _ => Nat.zero_le _

namespace Compaction

open Heap

variable {o : Occupancy} {cs chosen : List Chunk} {c : Chunk} {s : Selection}
  {first budget passBytes : Nat}

/-- A chunk may move if it is saved behind the block `first` and all of its blocks are in use. -/
def Movable (o : Occupancy) (first : Nat) (c : Chunk) : Prop :=
  c.saved ∧ first < c.first ∧
    o.Filled (c.first * blockSize / o.blockSize) (blocksCovering c.byteLen o.blockSize)

instance (o : Occupancy) (first : Nat) (c : Chunk) : Decidable (Movable o first c) :=
  inferInstanceAs (Decidable (_ ∧ _ ∧ _))

theorem movable_iff (ho : o.blockSize = blockSize) :
    Movable o first c ↔ c.saved ∧ first < c.first ∧ o.Filled c.first c.len.toNat := by
  rw [Movable, ho, Nat.mul_div_cancel _ (by decide), Chunk.byteLen, blocksCovering_mul (by decide)]

theorem Movable.filled (h : Movable o first c) (ho : o.blockSize = blockSize) :
    o.Filled c.first c.len.toNat := ((movable_iff ho).1 h).2.2

/-- The chunk with what its move gains. -/
def weigh (o : Occupancy) (c : Chunk) : Chunk :=
  { c with priority := (o.gain c.block.toNat).toUInt32 }

theorem Selection.trim_subperm (budget : Nat) (s : Selection) :
    (s.trim budget).heap.toList.Subperm s.heap.toList := by
  fun_induction trim budget s with
  | case1 => exact .refl _
  | case2 => exact .refl _
  | case3 s hb c rest hpop ih =>
    exact ih.trans ((List.sublist_cons_self c rest.toList).subperm.trans (perm_of_pop? hpop).symm.subperm)

theorem Selection.add_subperm (budget : Nat) (s : Selection) (c : Chunk) :
    (s.add budget c).heap.toList.Subperm (c :: s.heap.toList) :=
  (trim_subperm budget _).trans (push_perm keepsLonger s.heap c).subperm

theorem of_eligible {b : Bool} (h : eligible o first c = .ok b) :
    b = decide (Movable o first c) := by
  unfold eligible at h
  split at h
  · next hno =>
    obtain rfl := Except.ok.inj h
    refine (decide_eq_false fun hm => ?_).symm
    simp only [Bool.or_eq_true, decide_eq_true_eq, hm.1, Bool.not_true, Bool.false_eq_true,
      false_or] at hno
    exact Nat.not_lt.2 hno hm.2.1
  · next hyes =>
    simp only [Bool.or_eq_true, decide_eq_true_eq, not_or, Bool.not_eq_true',
      Bool.not_eq_false] at hyes
    obtain ⟨start, hstart, h⟩ := bind_eq_ok h
    obtain ⟨-, rfl⟩ := word64_eq_ok.1 hstart
    rw [Occupancy.of_isUsed h]
    exact decide_eq_decide.2
      ⟨fun hf => ⟨hyes.1, Nat.lt_of_not_le hyes.2, hf⟩, fun hm => hm.2.2⟩

theorem eligible_eq (ho : 0 < o.blockSize)
    (hc : c.saved → c.after * blockSize < UInt64.size) :
    eligible o first c = .ok (decide (Movable o first c)) := by
  have hok : ∃ b, eligible o first c = .ok b := by
    unfold eligible
    split
    · exact ⟨false, rfl⟩
    · next hyes =>
      have hsaved : c.saved := by
        simp only [Bool.or_eq_true, not_or, Bool.not_eq_true', Bool.not_eq_false] at hyes
        exact hyes.1
      have hafter := hc hsaved
      have ha := c.after_eq
      have hstart : c.first * blockSize < UInt64.size := by
        simp only [mul_blockSize] at *
        omega
      rw [Chunk.start_eq hstart, ok_bind]
      refine Occupancy.exists_isUsed ho (Nat.lt_of_le_of_lt (Nat.le_of_eq ?_) hafter)
      rw [ha, Nat.add_mul, Chunk.byteLen]
  obtain ⟨b, hb⟩ := hok
  rw [hb, of_eligible hb]

theorem of_consider {s' : Selection} (h : consider o first budget s c = .ok s') :
    (s'.heap.toList.map Chunk.unweighed).Subperm
      (c.unweighed :: s.heap.toList.map Chunk.unweighed) := by
  unfold consider at h
  obtain ⟨b, -, h⟩ := bind_eq_ok h
  cases b with
  | false =>
    obtain rfl := Except.ok.inj h
    exact (List.sublist_cons_self ..).subperm
  | true =>
    obtain rfl := Except.ok.inj h
    obtain ⟨l, hperm, hl⟩ := Selection.add_subperm budget s
      { c with priority := (o.gain c.block.toNat).toUInt32 }
    exact ⟨l.map Chunk.unweighed, hperm.map _, hl.map _⟩

theorem of_foldlM_consider {s s' : Selection}
    (h : cs.foldlM (consider o first budget) s = .ok s') :
    (s'.heap.toList.map Chunk.unweighed).Subperm
      (cs.map Chunk.unweighed ++ s.heap.toList.map Chunk.unweighed) := by
  induction cs generalizing s with
  | nil =>
    obtain rfl := Except.ok.inj h
    exact .refl _
  | cons c cs ih =>
    rw [List.foldlM_cons] at h
    obtain ⟨s₁, hs₁, h⟩ := bind_eq_ok h
    refine (ih h).trans (((List.subperm_append_left _).2 (of_consider hs₁)).trans ?_)
    exact List.perm_middle.subperm

/-- A choice leaves each chunk where it is and knows it at most once. -/
theorem of_choose (h : choose o cs first passBytes = .ok chosen) :
    (chosen.map Chunk.unweighed).Subperm (cs.map Chunk.unweighed) ∧
      chosen.Pairwise (·.first ≤ ·.first) := by
  unfold choose at h
  dsimp only at h
  split at h
  · obtain rfl := Except.ok.inj h
    exact ⟨List.nil_subperm, .nil⟩
  · obtain ⟨s, hs, h⟩ := bind_eq_ok h
    obtain rfl := Except.ok.inj h
    constructor
    · have hsub := of_foldlM_consider hs
      rw [List.map_nil, List.append_nil] at hsub
      exact ((List.mergeSort_perm ..).map _).subperm.trans hsub
    · have hsorted := @List.pairwise_mergeSort Chunk (fun c d => decide (c.block ≤ d.block))
        (fun a b c hab hbc => by
          simp only [decide_eq_true_eq] at *
          exact UInt64.le_trans hab hbc)
        (fun a b => by simpa using UInt64.le_total a.block b.block) s.heap.toList
      exact hsorted.imp fun hle => UInt64.le_iff_toNat_le.1 (of_decide_eq_true hle)

theorem exists_of_choose (h : choose o cs first passBytes = .ok chosen) :
    ∀ d ∈ chosen, ∃ c ∈ cs, c.id = d.id ∧ c.first = d.first ∧ c.len = d.len := fun d hd => by
  obtain ⟨c, hc, heq⟩ := List.mem_map.1 ((of_choose h).1.subset (List.mem_map_of_mem hd))
  exact ⟨c, hc, Chunk.of_unweighed_eq heq⟩

theorem movable_of_consider {s' : Selection} (hs : ∀ d ∈ s.heap.toList, Movable o first d)
    (h : consider o first budget s c = .ok s') : ∀ d ∈ s'.heap.toList, Movable o first d := by
  unfold consider at h
  obtain ⟨b, hb, h⟩ := bind_eq_ok h
  cases b with
  | false =>
    obtain rfl := Except.ok.inj h
    exact hs
  | true =>
    obtain rfl := Except.ok.inj h
    intro d hd
    rcases List.mem_cons.1 ((Selection.add_subperm budget s _).subset hd) with rfl | hd
    · exact of_decide_eq_true (of_eligible hb).symm
    · exact hs d hd

/-- Only chunks that may move are chosen. -/
theorem movable_of_choose (h : choose o cs first passBytes = .ok chosen) :
    ∀ d ∈ chosen, Movable o first d := by
  have fold {ds : List Chunk} {s s' : Selection} (hs : ∀ d ∈ s.heap.toList, Movable o first d)
      (h : ds.foldlM (consider o first (passBytes / blockSize)) s = .ok s') :
      ∀ d ∈ s'.heap.toList, Movable o first d := by
    induction ds generalizing s with
    | nil =>
      obtain rfl := Except.ok.inj h
      exact hs
    | cons c ds ih =>
      rw [List.foldlM_cons] at h
      obtain ⟨s₁, hs₁, h⟩ := bind_eq_ok h
      exact ih (movable_of_consider hs hs₁) h
  unfold choose at h
  dsimp only at h
  split at h
  · obtain rfl := Except.ok.inj h
    exact List.forall_mem_nil _
  · obtain ⟨s, hs, h⟩ := bind_eq_ok h
    obtain rfl := Except.ok.inj h
    intro d hd
    exact fold (List.forall_mem_nil _) hs d ((List.mergeSort_perm ..).mem_iff.1 hd)

/-- The chunks of a list that may move, with what that gains. -/
def movable (o : Occupancy) (first : Nat) (cs : List Chunk) : List Chunk :=
  (cs.filter (Movable o first)).map (weigh o)

theorem foldlM_consider_eq (ho : 0 < o.blockSize)
    (hcs : ∀ c ∈ cs, c.saved → c.after * blockSize < UInt64.size) :
    cs.foldlM (consider o first budget) s =
      .ok ((movable o first cs).foldl (Selection.add budget) s) := by
  induction cs generalizing s with
  | nil => rfl
  | cons c cs ih =>
    have ih (s : Selection) := ih (s := s) fun d hd => hcs d (List.mem_cons_of_mem _ hd)
    rw [List.foldlM_cons, consider, eligible_eq ho (hcs c List.mem_cons_self), ok_bind, movable,
      List.filter_cons]
    by_cases hm : decide (Movable o first c) = true
    · rw [if_pos hm, if_pos hm, List.map_cons]
      exact ih _
    · rw [if_neg hm, if_neg hm]
      exact ih _

/-- The choice takes in the chunks that may move one after the other. -/
theorem choose_eq (first passBytes : Nat) (ho : 0 < o.blockSize)
    (hcs : ∀ c ∈ cs, c.saved → c.after * blockSize < UInt64.size) :
    choose o cs first passBytes = .ok (if passBytes / blockSize = 0 then [] else
      ((movable o first cs).foldl (Selection.add (passBytes / blockSize)) {}).heap.toList.mergeSort
        (·.block ≤ ·.block)) := by
  unfold choose
  dsimp only
  split
  · rfl
  · rw [foldlM_consider_eq ho hcs, ok_bind]
    rfl

/-- The choice succeeds. It leaves each chunk where it is and knows it at most once. -/
theorem choose_spec (first passBytes : Nat) (ho : o.blockSize = blockSize)
    (hcs : ∀ c ∈ cs, c.after * blockSize < UInt64.size) :
    ∃ chosen, choose o cs first passBytes = .ok chosen ∧
      (chosen.map Chunk.unweighed).Subperm (cs.map Chunk.unweighed) ∧
      chosen.Pairwise (·.first ≤ ·.first) := by
  have hchosen := choose_eq first passBytes (by rw [ho]; decide) fun c hc _ => hcs c hc
  exact ⟨_, hchosen, of_choose hchosen⟩

end Compaction

end BlockStore
