namespace BlockStore.Heap

/-! A priority queue in an array: no item is above its parent in the order `le`. -/

variable {α : Type}

/-- Lets the item at `i` rise past every parent it is above. -/
def rise (le : α → α → Bool) (items : Array α) (i : Nat) : Array α :=
  if h : 0 < i ∧ i < items.size then
    if le items[i] items[(i - 1) / 2] then items
    else rise le (items.swap i ((i - 1) / 2)) ((i - 1) / 2)
  else items
  termination_by i

/-- Lets the item at `i` fall to the bottom, each time past the greater child; of two equal
children, past the second. Also returns where it ended. -/
def sink (le : α → α → Bool) (items : Array α) (i : Nat) : Array α × Nat :=
  if h : 2 * i + 2 < items.size then
    if le items[2 * i + 1] items[2 * i + 2] then
      sink le (items.swap i (2 * i + 2)) (2 * i + 2)
    else sink le (items.swap i (2 * i + 1)) (2 * i + 1)
  else if h : 2 * i + 1 < items.size then (items.swap i (2 * i + 1), 2 * i + 1)
  else (items, i)
  termination_by items.size - i
  decreasing_by all_goals simp only [Array.size_swap]; omega

def push (le : α → α → Bool) (items : Array α) (x : α) : Array α :=
  rise le (items.push x) items.size

/-- The greatest item, and the others. -/
def pop? (le : α → α → Bool) (items : Array α) : Option (α × Array α) :=
  match items.back? with
  | none => none
  | some last =>
    let rest := items.pop
    if h : 0 < rest.size then
      let (fallen, i) := sink le (rest.set 0 last) 0
      some (rest[0], rise le fallen i)
    else some (last, rest)

theorem size_rise (le : α → α → Bool) (items : Array α) (i : Nat) :
    (rise le items i).size = items.size := by
  fun_induction rise le items i with
  | case1 | case3 => rfl
  | case2 items i h hle ih => simpa using ih

theorem size_sink (le : α → α → Bool) (items : Array α) (i : Nat) :
    (sink le items i).1.size = items.size := by
  fun_induction sink le items i with
  | case1 items i h hle ih => simpa using ih
  | case2 items i h hle ih => simpa using ih
  | case3 => simp
  | case4 => rfl

theorem size_of_pop? {le : α → α → Bool} {items rest : Array α} {x : α}
    (h : pop? le items = some (x, rest)) : rest.size + 1 = items.size := by
  unfold pop? at h
  split at h
  · simp at h
  · next last hl =>
    have hpos : 0 < items.size := by
      rcases Nat.eq_zero_or_pos items.size with h0 | h0
      · simp [Array.eq_empty_of_size_eq_zero h0] at hl
      · exact h0
    dsimp only at h
    split at h
    · simp only [Option.some.injEq, Prod.mk.injEq] at h
      rw [← h.2, size_rise, size_sink]
      simp; omega
    · simp only [Option.some.injEq, Prod.mk.injEq] at h
      rw [← h.2]; simp; omega

end BlockStore.Heap
