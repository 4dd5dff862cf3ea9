namespace BlockStore

/-- A promise broken by the caller or by the arithmetic. A fault ends the run, whereas an error
is an answer. -/
inductive Fault
  | overflow
  | zeroDivisor
  | outOfBounds
  | assertion
  /-- A buffer larger than memory can address. -/
  | capacity
  deriving DecidableEq

abbrev Checked := Except Fault

def word32 (n : Nat) : Checked Nat := if n < UInt32.size then .ok n else .error .overflow

def word64 (n : Nat) : Checked Nat := if n < UInt64.size then .ok n else .error .overflow

theorem word64_eq_ok {n m : Nat} : word64 n = .ok m ↔ n < UInt64.size ∧ m = n := by
  unfold word64
  split
  · next h => exact ⟨fun e => ⟨h, (Except.ok.inj e).symm⟩, fun ⟨_, e⟩ => e ▸ rfl⟩
  · next h => exact ⟨nofun, fun ⟨hn, _⟩ => absurd hn h⟩

end BlockStore
