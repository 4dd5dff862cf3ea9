import BlockStore.Chunk

namespace BlockStore

/-- Chunks in ascending order of their ids, each id once. -/
structure Roster where
  chunks : List Chunk
  ascending : chunks.Pairwise (·.id < ·.id)
  deriving DecidableEq

namespace Roster

/-- Puts a chunk at its place in an ascending list, instead of one with the same id. -/
def insertInto (c : Chunk) : List Chunk → List Chunk
  | [] => [c]
  | d :: ds =>
    if c.id < d.id then c :: d :: ds
    else if c.id = d.id then c :: ds
    else d :: insertInto c ds

theorem eq_or_mem_of_mem_insertInto {c d : Chunk} {ds : List Chunk} (h : d ∈ insertInto c ds) :
    d = c ∨ d ∈ ds := by
  induction ds with
  | nil => simpa [insertInto] using h
  | cons e es ih =>
      unfold insertInto at h
      split at h
      · simpa using h
      · split at h <;> grind

theorem ascending_insertInto (c : Chunk) {ds : List Chunk} (h : ds.Pairwise (·.id < ·.id)) :
    (insertInto c ds).Pairwise (·.id < ·.id) := by
  induction ds with
  | nil => simp [insertInto]
  | cons e es ih =>
      obtain ⟨he, hes⟩ := List.pairwise_cons.1 h
      unfold insertInto
      split
      · exact List.pairwise_cons.2 ⟨fun d hd => by grind, h⟩
      · split
        · next heq => exact List.pairwise_cons.2 ⟨fun d hd => heq ▸ he d hd, hes⟩
        · next hne =>
          refine List.pairwise_cons.2 ⟨fun d hd => ?_, ih hes⟩
          rcases eq_or_mem_of_mem_insertInto hd with rfl | hd
          · have := UInt32.lt_or_lt_of_ne hne
            grind
          · exact he d hd

def empty : Roster := ⟨[], .nil⟩

/-- Adds a chunk, in place of one with the same id. -/
def insert (r : Roster) (c : Chunk) : Roster :=
  ⟨insertInto c r.chunks, ascending_insertInto c r.ascending⟩

def ofList (chunks : List Chunk) : Roster := chunks.foldl insert empty

def find? (r : Roster) (id : UInt32) : Option Chunk := r.chunks.find? (·.id = id)

def erase (r : Roster) (id : UInt32) : Roster :=
  ⟨r.chunks.filter (·.id ≠ id), r.ascending.filter _⟩

def ids (r : Roster) : List UInt32 := r.chunks.map Chunk.id

def size (r : Roster) : Nat := r.chunks.length

theorem find?_insertInto (c : Chunk) (id : UInt32) {ds : List Chunk}
    (h : ds.Pairwise (·.id < ·.id)) :
    (insertInto c ds).find? (·.id = id) = if c.id = id then some c else ds.find? (·.id = id) := by
  induction ds with
  | nil => by_cases hc : c.id = id <;> simp [insertInto, hc]
  | cons e es ih =>
      obtain ⟨he, hes⟩ := List.pairwise_cons.1 h
      unfold insertInto
      split
      · by_cases hc : c.id = id <;> simp [List.find?_cons, hc]
      · split
        · next heq => by_cases hc : c.id = id <;> simp [hc, ← heq]
        · next hne =>
          rw [List.find?_cons, List.find?_cons, ih hes]
          by_cases hc : c.id = id
          · simp [hc, Ne.symm (hc ▸ hne)]
          · simp [hc]

theorem find?_insert (r : Roster) (c : Chunk) (id : UInt32) :
    (r.insert c).find? id = if c.id = id then some c else r.find? id :=
  find?_insertInto c id r.ascending

theorem ascending_ids (r : Roster) : r.ids.Pairwise (· < ·) := List.pairwise_map.2 r.ascending

end Roster

end BlockStore
