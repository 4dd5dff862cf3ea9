import BlockStore.Proofs.Forecast

namespace BlockStore

open BlockStore.Action Bytes

/-- Behind the header all bytes are still there. -/
def Appended (b b' : ByteArray) : Prop :=
  b.size ≤ b'.size ∧ ∀ i, headerBytes ≤ i → i < b.size → (toList b')[i]? = (toList b)[i]?

namespace Appended

variable {b b' b'' data : ByteArray} {pos : Nat}

theorem refl (b : ByteArray) : Appended b b := ⟨Nat.le_refl _, fun _ _ _ => rfl⟩

theorem trans (h : Appended b b') (h' : Appended b' b'') : Appended b b'' :=
  ⟨Nat.le_trans h.1 h'.1, fun i hi hb =>
    (h'.2 i hi (Nat.lt_of_lt_of_le hb h.1)).trans (h.2 i hi hb)⟩

/-- A write that lies within the header or starts behind the end. -/
theorem write (h : pos + data.size ≤ headerBytes ∨ b.size ≤ pos) :
    Appended b (Change.apply b (.write pos data)) := by
  refine ⟨?_, fun i hi hb => ?_⟩
  · rw [Change.size_apply_write]
    exact Nat.le_max_left _ _
  · rw [Change.getElem?_apply_write (.inl hb), if_neg (by omega)]

end Appended

namespace Engine

open Device

variable {δ : Type} [Device δ] [Plain δ] {e : Engine δ} {c : Chunk} {p buf : ByteArray}
  {start n : Nat}

def bytes (e : Engine δ) : ByteArray := Plain.bytes e.device

end Engine

namespace Store

open Engine Device

variable {δ : Type} [Device δ] [Plain δ] {v w : Store δ}

/-- The store answers a request and stays open. -/
def Serves (v w : Store δ) : Prop := ∃ q : Request, q.Stays ∧ ∃ reply, q.run v = (.ok reply, w)

end Store

end BlockStore
