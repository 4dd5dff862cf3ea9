import BlockStore.Error

namespace BlockStore

structure Settings where
  path : String := "./chunkvault.db"
  readOnly : Bool := false
  reuseSpace : Bool := true
  poolSize : Nat := 4
  compactBelow : Nat := 90
  passBytes : Nat := 16 * 1024 * 1024
  /-- In milliseconds. -/
  timeLimit : Nat := 200
  shrinkFrom : Nat := 10
  deriving DecidableEq

def Settings.check (s : Settings) : Except StoreError Unit := do
  if 100 < s.compactBelow then
    throw (.settings (.compactBelow s.compactBelow))
  if 100 < s.shrinkFrom then throw (.settings (.shrinkFrom s.shrinkFrom))
  if s.passBytes < blockSize then throw (.settings (.passBytes s.passBytes))
  if s.poolSize = 0 then throw (.settings .noBuffers)

end BlockStore
