import BlockStore.CommandLine.Run

namespace BlockStore

open Device

def DeviceError.ofSystem : IO.Error → DeviceError
  | .noFileOrDirectory _ code text | .inappropriateType _ code text
  | .permissionDenied _ code text | .invalidArgument _ code text
  | .resourceExhausted _ code text | .alreadyExists _ code text => .system code.toNat text
  | .otherError code text | .resourceBusy code text | .unsupportedOperation code text =>
    .system code.toNat text
  | e => .system 5 (toString e)

def answered {α : Type} (act : IO α) : IO (Except StoreError α) := do
  match ← act.toBaseIO with
  | .ok a => return .ok a
  | .error e => return .error (.device (.ofSystem e))

def contentOf (path : String) : IO ByteArray := do
  let handle ← IO.FS.Handle.mk path .read
  handle.readBinToEnd

/-- The files of the machine. An open file is read whole and written back whole; one that is to be
written is created first, with what it holds left alone. -/
instance : Files IO where
  readAll path := answered (contentOf path)
  writeAll path content := answered (IO.FS.writeBinFile path content)
  openDisk path readOnly := do
    unless readOnly do
      if let .error e ← answered (IO.FS.Handle.mk path .append) then return .error e
    match ← answered (contentOf path) with
    | .ok content => return Disk.openFile (some (.ofBytes content)) readOnly
    | .error (.device (.system 21 _)) => return .ok .directory
    | .error e => return .error e
  saveDisk path disk := IO.FS.writeBinFile path disk.content.toBytes

end BlockStore

def main (args : List String) : IO UInt32 := do
  let outcome ← BlockStore.CommandLine.execute args
  (← IO.getStdout).write outcome.output
  if let some text := outcome.error then IO.eprintln text
  return outcome.code.toUInt32
