import BlockStore.Heap
import BlockStore.Occupancy

namespace BlockStore.Compaction

/-- `c` is to be given up no earlier than `d`: of higher priority, or as high and not further back
in the file. -/
def keepsLonger (c d : Chunk) : Bool :=
  d.priority < c.priority || c.priority = d.priority && c.block ≤ d.block

/-- The chunks chosen so far, with the first to be given up on top, and the sum of their lengths. -/
structure Selection where
  heap : Array Chunk := #[]
  blocks : Nat := 0

namespace Selection

/-- Gives chunks up until the rest fits the budget. -/
def trim (budget : Nat) (s : Selection) : Selection :=
  if s.blocks ≤ budget then s
  else
    match _h : Heap.pop? keepsLonger s.heap with
    | none => s
    | some (c, rest) => trim budget ⟨rest, s.blocks - c.len.toNat⟩
  termination_by s.heap.size
  decreasing_by
    have := Heap.size_of_pop? _h
    omega

def add (budget : Nat) (s : Selection) (c : Chunk) : Selection :=
  trim budget ⟨Heap.push keepsLonger s.heap c, s.blocks + c.len.toNat⟩

end Selection

/-- A chunk may move if it lies behind the first free block, on blocks that are in use. -/
def eligible (o : Occupancy) (first : Nat) (c : Chunk) : Checked Bool := do
  if !c.saved || c.block.toNat ≤ first then return false
  o.isUsed (← c.start) c.byteLen

def consider (o : Occupancy) (first budget : Nat) (s : Selection) (c : Chunk) :
    Checked Selection := do
  if ← eligible o first c then
    return s.add budget { c with priority := (o.gain c.block.toNat).toUInt32 }
  else return s

/-- The chunks of highest priority that fit into a budget of bytes, by ascending position. -/
def choose (o : Occupancy) (chunks : List Chunk) (first passBytes : Nat) :
    Checked (List Chunk) := do
  let budget := passBytes / blockSize
  if budget = 0 then return []
  let chosen ← chunks.foldlM (consider o first budget) {}
  return chosen.heap.toList.mergeSort (·.block ≤ ·.block)

end BlockStore.Compaction
