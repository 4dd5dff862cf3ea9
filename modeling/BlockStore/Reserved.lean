import BlockStore.Fault

namespace BlockStore

/-- The blocks from `low` up to, not including, `high` (or without end) that an allocation has to
leave alone. -/
structure Reserved where
  low : Nat
  high : Option Nat
  deriving DecidableEq

namespace Reserved

def nothing : Reserved := ⟨0, some 0⟩

def between (low high : Nat) : Reserved := ⟨low, some high⟩

def above (low : Nat) : Reserved := ⟨low, none⟩

/-- Whether `blocks` blocks from `start` on reach into the reserved ones. Their end is computed
only when they start below the upper bound. -/
def meets (r : Reserved) (start blocks : Nat) : Checked Bool :=
  if r.high.all (start < ·) then (r.low < ·) <$> word64 (start + blocks) else .ok false

theorem lt_of_meets {r : Reserved} {start blocks high : Nat} (h : r.meets start blocks = .ok true)
    (hh : r.high = some high) : start < high := by
  unfold meets at h
  split at h
  · simp_all
  · simp at h

end Reserved

end BlockStore
