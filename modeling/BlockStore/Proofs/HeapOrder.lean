import BlockStore.Heap

namespace BlockStore.Heap

variable {α : Type} {le : α → α → Bool} {items rest : Array α} {x : α} {i : Nat}

/-- No item is above its parent. -/
def IsHeap (le : α → α → Bool) (items : Array α) : Prop :=
  ∀ j (h : j < items.size), 0 < j → le items[j] items[(j - 1) / 2]

/-- Only the item at `i` may be out of order, with its parent and with its children. -/
structure Loose (le : α → α → Bool) (items : Array α) (i : Nat) : Prop where
  apart : ∀ j (h : j < items.size), 0 < j → j ≠ i → (j - 1) / 2 ≠ i → le items[j] items[(j - 1) / 2]
  across : ∀ j (h : j < items.size), 0 < i → 0 < j → (hp : (j - 1) / 2 = i) →
    le items[j] items[(i - 1) / 2]

/-- Only the item at `i` may be above its parent. -/
structure Rising (le : α → α → Bool) (items : Array α) (i : Nat) : Prop extends
    Loose le items i where
  below : ∀ j (h : j < items.size), 0 < j → (hp : (j - 1) / 2 = i) → le items[j] items[i]

theorem Loose.rising_of_leaf (h : Loose le items i) (hi : items.size ≤ 2 * i + 1) :
    Rising le items i :=
  { h with below := fun j hj _ hp => by omega }

theorem Rising.isHeap (h : Rising le items i)
    (hi : ∀ hi : i < items.size, 0 < i → le items[i] items[(i - 1) / 2]) : IsHeap le items := by
  intro j hj hpos
  by_cases hji : j = i
  · subst hji
    exact hi hj hpos
  · by_cases hp : (j - 1) / 2 = i
    · simpa only [hp] using h.below j hj hpos hp
    · exact h.apart j hj hpos hji hp

theorem IsHeap.rising_push (h : IsHeap le items) (x : α) : Rising le (items.push x) items.size where
  apart j hj hpos hne _ := by
    rw [Array.size_push] at hj
    rw [Array.getElem_push_lt (show j < items.size by omega),
      Array.getElem_push_lt (show (j - 1) / 2 < items.size by omega)]
    exact h j (by omega) hpos
  across j hj _ _ hp := by
    rw [Array.size_push] at hj
    omega
  below j hj _ hp := by
    rw [Array.size_push] at hj
    omega

/-- The root may be replaced by any item. -/
theorem IsHeap.loose_set (h : IsHeap le items) (x : α) (hpos : 0 < items.size) :
    Loose le (items.set 0 x) 0 where
  apart j hj hj0 hne hp := by
    rw [Array.size_set] at hj
    rw [Array.getElem_set_ne hpos hj hne.symm, Array.getElem_set_ne hpos (by omega) (Ne.symm hp)]
    exact h j hj hj0
  across j hj hi := absurd hi (Nat.lt_irrefl 0)

theorem IsHeap.pop (h : IsHeap le items) : IsHeap le items.pop := by
  intro j hj hpos
  rw [Array.size_pop] at hj
  simpa only [Array.getElem_pop] using h j (by omega) hpos

/-- A swap with the greatest child leaves the item to fall on from there. -/
theorem Loose.swap {c : Nat} (h : Loose le items i) (hc : c < items.size) (hpos : 0 < c)
    (hp : (c - 1) / 2 = i)
    (hmax : ∀ j (hj : j < items.size), 0 < j → j ≠ c → (j - 1) / 2 = i → le items[j] items[c]) :
    Loose le (items.swap i c (by omega) hc) c where
  apart j hj hj0 hjc hjp := by
    rw [Array.size_swap] at hj
    by_cases hji : j = i
    · subst hji
      rw [Array.getElem_swap_left, Array.getElem_swap_of_ne (by omega) (by omega)]
      exact h.across c hc hj0 hpos hp
    · rw [Array.getElem_swap_of_ne hji hjc]
      by_cases hpi : (j - 1) / 2 = i
      · simp only [hpi, Array.getElem_swap_left]
        exact hmax j hj hj0 hjc hpi
      · rw [Array.getElem_swap_of_ne hpi hjp]
        exact h.apart j hj hj0 hji hpi
  across j hj _ hj0 hjp := by
    rw [Array.size_swap] at hj
    have hle := h.apart j hj hj0 (by omega) (by omega)
    simp only [hjp] at hle
    simp only [hp, Array.getElem_swap_left]
    rwa [Array.getElem_swap_of_ne (by omega) (by omega)]

section

variable (total : ∀ a b, le a b ∨ le b a) (trans : ∀ a b c, le a b → le b c → le a c)

include total in
theorem loose_sink (h : Loose le items i) :
    Rising le (sink le items i).1 (sink le items i).2 := by
  fun_induction sink le items i with
  | case1 items i hs hle ih =>
    exact ih (h.swap hs (by omega) (by omega) fun j hj hj0 hne hp => by
      obtain rfl : j = 2 * i + 1 := by omega
      exact hle)
  | case2 items i hs hle ih =>
    exact ih (h.swap (by omega) (by omega) (by omega) fun j hj hj0 hne hp => by
      obtain rfl : j = 2 * i + 2 := by omega
      exact (total _ _).resolve_left hle)
  | case3 items i hs hs' =>
    refine (h.swap hs' (by omega) (by omega) fun j hj hj0 hne hp => ?_).rising_of_leaf ?_
    · omega
    · rw [Array.size_swap]
      omega
  | case4 items i hs hs' => exact h.rising_of_leaf (by omega)

include total trans in
/-- A swap with a parent that the item is above leaves it to rise on from there. -/
theorem Rising.swap (h : Rising le items i) (hi : i < items.size) (hpos : 0 < i)
    (hlt : ¬le items[i] items[(i - 1) / 2]) :
    Rising le (items.swap i ((i - 1) / 2) hi (by omega)) ((i - 1) / 2) := by
  have hle : le items[(i - 1) / 2] items[i] := (total _ _).resolve_left hlt
  -- What was below the old parent stays below it, and below the item that takes its place.
  have hsibling (j : Nat) (hj : j < items.size) (hj0 : 0 < j) (hji : j ≠ i)
      (hp : (j - 1) / 2 = (i - 1) / 2) : le items[j] items[(i - 1) / 2] := by
    simpa only [hp] using h.apart j hj hj0 hji (by omega)
  constructor
  · constructor
    · intro j hj hj0 hjp hpp
      rw [Array.size_swap] at hj
      have hji : j ≠ i := by
        rintro rfl
        exact hpp rfl
      rw [Array.getElem_swap_of_ne hji hjp]
      by_cases hp : (j - 1) / 2 = i
      · simp only [hp, Array.getElem_swap_left]
        exact h.across j hj hpos hj0 hp
      · rw [Array.getElem_swap_of_ne hp hpp]
        exact h.apart j hj hj0 hji hp
    · intro j hj hp0 hj0 hp
      rw [Array.size_swap] at hj
      have hup := h.apart ((i - 1) / 2) (by omega) hp0 (by omega) (by omega)
      rw [Array.getElem_swap_of_ne (k := ((i - 1) / 2 - 1) / 2) (by omega) (by omega)]
      by_cases hji : j = i
      · subst hji
        rwa [Array.getElem_swap_left]
      · rw [Array.getElem_swap_of_ne hji (by omega)]
        exact trans _ _ _ (hsibling j hj hj0 hji hp) hup
  · intro j hj hj0 hp
    rw [Array.size_swap] at hj
    rw [Array.getElem_swap_right]
    by_cases hji : j = i
    · subst hji
      rwa [Array.getElem_swap_left]
    · rw [Array.getElem_swap_of_ne hji (by omega)]
      exact trans _ _ _ (hsibling j hj hj0 hji hp) hle

include total trans in
theorem isHeap_rise (h : Rising le items i) : IsHeap le (rise le items i) := by
  fun_induction rise le items i with
  | case1 items i hi hle => exact h.isHeap fun _ _ => hle
  | case2 items i hi hle ih => exact ih (h.swap total trans hi.2 hi.1 hle)
  | case3 items i hi => exact h.isHeap fun h1 h2 => absurd ⟨h2, h1⟩ hi

include total trans in
theorem isHeap_push (h : IsHeap le items) (x : α) : IsHeap le (push le items x) :=
  isHeap_rise total trans (h.rising_push x)

include total trans in
theorem IsHeap.le_root (h : IsHeap le items) (hi : i < items.size) : le items[i] items[0] := by
  induction i using Nat.strongRecOn with
  | ind i ih =>
    rcases Nat.eq_zero_or_pos i with rfl | hpos
    · exact (total _ _).elim id id
    · exact trans _ _ _ (h i hi hpos) (ih ((i - 1) / 2) (by omega) (by omega))

theorem eq_empty_of_pop? (hpop : pop? le items = none) : items = #[] := by
  unfold pop? at hpop
  split at hpop
  · next hlast => exact Array.back?_eq_none_iff.1 hlast
  · dsimp only at hpop
    split at hpop
    · exact nomatch hpop
    · exact nomatch hpop

include total trans in
/-- What is taken off a heap is the greatest item, and the rest is a heap. -/
theorem isHeap_of_pop? (h : IsHeap le items) (hpop : pop? le items = some (x, rest)) :
    IsHeap le rest ∧ ∀ y ∈ items, le y x := by
  unfold pop? at hpop
  split at hpop
  · exact nomatch hpop
  · next last hlast =>
    dsimp only at hpop
    split at hpop
    · next hpos =>
      obtain ⟨rfl, rfl⟩ := Prod.mk.inj (Option.some.inj hpop)
      refine ⟨isHeap_rise total trans (loose_sink total (h.pop.loose_set last hpos)), fun y hy => ?_⟩
      obtain ⟨i, hi, rfl⟩ := Array.mem_iff_getElem.1 hy
      rw [Array.getElem_pop]
      exact h.le_root total trans hi
    · next hpos =>
      obtain ⟨rfl, rfl⟩ := Prod.mk.inj (Option.some.inj hpop)
      refine ⟨h.pop, fun y hy => ?_⟩
      obtain ⟨init, rfl⟩ := Array.back?_eq_some_iff.1 hlast
      rw [Array.pop_push, Nat.not_lt, Nat.le_zero_eq, Array.size_eq_zero_iff] at hpos
      subst hpos
      obtain rfl : y = last := by simpa using hy
      exact (total _ _).elim id id

end

end BlockStore.Heap
