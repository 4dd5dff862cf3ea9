import BlockStore.Bytes

namespace BlockStore

/-- Write buffers that wait to be used again, the next one first. -/
structure BufferPool where
  capacity : Nat
  idle : List ByteArray := []

namespace BufferPool

/-- The bytes that a place for a buffer takes. -/
def placeSize : Nat := 40

/-- Room for at least one buffer. -/
def create (capacity : Nat) : Checked BufferPool := do
  let capacity := max capacity 1
  Bytes.room (capacity * placeSize)
  return { capacity }

/-- An idle buffer, or else a new one, emptied and filled with `len` zero bytes. -/
def acquire (p : BufferPool) (len : Nat) : Checked (ByteArray × BufferPool) := do
  let buf := p.idle.headD .empty
  Bytes.room len
  return (Bytes.grow (buf.extract 0 0) len, { p with idle := p.idle.tail })

def release (p : BufferPool) (buf : ByteArray) : BufferPool :=
  if p.idle.length < p.capacity then { p with idle := p.idle ++ [buf] } else p

end BufferPool

end BlockStore
