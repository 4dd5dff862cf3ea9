namespace BlockStore

/-- A finite set of naturals, 64 to a word. The last word is never zero. -/
structure Bitmap where
  words : Array UInt64 := #[]
  deriving DecidableEq

namespace Bitmap

def bit (w : UInt64) (k : Nat) : Bool := (w >>> k.toUInt64) &&& 1 == 1

/-- The bits of a word from `lo` up to, not including, `hi`. -/
def mask (lo hi : Nat) : UInt64 :=
  if lo < hi then (0xFFFFFFFFFFFFFFFF <<< lo.toUInt64) &&& (0xFFFFFFFFFFFFFFFF >>> (64 - hi).toUInt64)
  else 0

/-- The least bit of `w` that is set and not below `k`. -/
def lowest? (w : UInt64) (k : Nat) : Option Nat :=
  if k < 64 then if bit w k then some k else lowest? w (k + 1) else none
  termination_by 64 - k

/-- The greatest bit of `w` that is set and not above `k`. -/
def highest? (w : UInt64) : Nat → Option Nat
  | 0 => if bit w 0 then some 0 else none
  | k + 1 => if bit w (k + 1) then some (k + 1) else highest? w k

def population (w : UInt64) : Nat := if w = 0 then 0 else (List.range 64).countP (bit w)

def contains (s : Bitmap) (i : Nat) : Bool := bit (s.words.getD (i / 64) 0) (i % 64)

instance : Membership Nat Bitmap := ⟨fun s i => s.contains i⟩

instance (i : Nat) (s : Bitmap) : Decidable (i ∈ s) := inferInstanceAs (Decidable (s.contains i = true))

/-- Applies `f` to the words that meet `[lo, hi)`, each with its bits in that range. -/
def update (f : UInt64 → UInt64 → UInt64) (lo hi : Nat) (words : Array UInt64) : Array UInt64 :=
  let first := lo / 64
  let stop := min ((hi + 63) / 64) words.size
  (List.range' first (stop - first)).foldl
    (fun ws i => ws.modify i (f · (mask (lo - 64 * i) (min 64 (hi - 64 * i))))) words

def insertRange (s : Bitmap) (lo hi : Nat) : Bitmap :=
  if lo < hi then
    ⟨update (· ||| ·) lo hi (s.words ++ Array.replicate ((hi + 63) / 64 - s.words.size) 0)⟩
  else s

def eraseRange (s : Bitmap) (lo hi : Nat) : Bitmap :=
  if lo < hi then ⟨(update (fun w m => w &&& ~~~m) lo hi s.words).popWhile (· == 0)⟩ else s

def card (s : Bitmap) : Nat := s.words.foldl (fun n w => n + population w) 0

/-- The first index from bit `k` of word `i` on that the words show as set, seen through `view`. -/
def seekUp (view : UInt64 → UInt64) (words : Array UInt64) (i k : Nat) : Option Nat :=
  if h : i < words.size then
    let w := view words[i]
    match if w = 0 then none else lowest? w k with
    | some b => some (64 * i + b)
    | none => seekUp view words (i + 1) 0
  else none
  termination_by words.size - i

/-- The last index in the first `n` words, and not above bit `k` of the last of them. -/
def seekDown (view : UInt64 → UInt64) (words : Array UInt64) : Nat → Nat → Option Nat
  | 0, _ => none
  | n + 1, k =>
    let w := view (words.getD n 0)
    match if w = 0 then none else highest? w k with
    | some b => some (64 * n + b)
    | none => seekDown view words n 63

/-- The least member that is not below `i`. -/
def next? (s : Bitmap) (i : Nat) : Option Nat := seekUp id s.words (i / 64) (i % 64)

/-- The least index that is no member and not below `i`. -/
def nextGap (s : Bitmap) (i : Nat) : Nat :=
  (seekUp (~~~ ·) s.words (i / 64) (i % 64)).getD (max i (64 * s.words.size))

/-- The greatest member that is not above `i`. -/
def prev? (s : Bitmap) (i : Nat) : Option Nat :=
  if i / 64 < s.words.size then seekDown id s.words (i / 64 + 1) (i % 64)
  else seekDown id s.words s.words.size 63

/-- The greatest index that is no member and not above `i`. -/
def prevGap? (s : Bitmap) (i : Nat) : Option Nat :=
  if i / 64 < s.words.size then seekDown (~~~ ·) s.words (i / 64 + 1) (i % 64) else some i

/-- One more than the greatest member. -/
def length (s : Bitmap) : Nat := ((seekDown id s.words s.words.size 63).map (· + 1)).getD 0

theorem lowest?_bounds {w : UInt64} {k b : Nat} (h : lowest? w k = some b) :
    k ≤ b ∧ b < 64 ∧ bit w b := by
  fun_induction lowest? w k with
  | case1 k hk hb => simp_all
  | case2 k hk hb ih =>
      obtain ⟨h1, h2, h3⟩ := ih h
      exact ⟨by omega, h2, h3⟩
  | case3 => simp at h

theorem seekUp_bounds {view : UInt64 → UInt64} {words : Array UInt64} {i k j : Nat} (hk : k < 64)
    (h : seekUp view words i k = some j) : 64 * i + k ≤ j ∧ j < 64 * words.size := by
  fun_induction seekUp view words i k with
  | case1 i k hi w b hb =>
      split at hb
      · exact nomatch hb
      · have := lowest?_bounds hb
        simp only [Option.some.injEq] at h
        omega
  | case2 i k hi w hb ih =>
      have := ih (by omega) h
      omega
  | case3 => simp at h

theorem next?_bounds {s : Bitmap} {i j : Nat} (h : s.next? i = some j) :
    i ≤ j ∧ j < 64 * s.words.size := by
  have := seekUp_bounds (by omega) h
  omega

theorem le_nextGap (s : Bitmap) (i : Nat) : i ≤ s.nextGap i := by
  unfold nextGap
  cases h : seekUp (~~~ ·) s.words (i / 64) (i % 64) with
  | none => exact Nat.le_max_left _ _
  | some j =>
      have := seekUp_bounds (by omega) h
      simp only [Option.getD_some]
      omega

end Bitmap

end BlockStore
