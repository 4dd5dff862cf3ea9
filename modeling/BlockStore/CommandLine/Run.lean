import BlockStore.CommandLine.Command
import BlockStore.Files
import BlockStore.Store

namespace BlockStore.CommandLine

open Device

variable {m : Type → Type} [Monad m] [Files m]

/-- Runs a step on the store in a file. What it did to the file stays done when it fails. -/
def onStore {α : Type} (path : String) (store : Store Disk) (act : Action (Store Disk) α) :
    ExceptT Failure m (α × Store Disk) := do
  let (r, store) := act store
  unless store.engine.device.sealed do (Files.saveDisk path store.engine.device : m Unit)
  match r with
  | .ok a => return (a, store)
  | .error f => throw f

def openStore (settings : Settings) : ExceptT Failure m (Store Disk) := do
  match ← (Files.openDisk settings.path settings.readOnly : m _) with
  | .error e => throw (.error e)
  | .ok disk =>
    match Store.openOn settings disk with
    | .error (f, disk) =>
      unless disk.sealed do (Files.saveDisk settings.path disk : m Unit)
      throw f
    | .ok store => Prod.snd <$> onStore settings.path store (pure ())

def report (path : String) (store : Store Disk) : Checked String := do
  let e := store.engine
  let inUse ← e.occupancy.stopPos
  let fillRate ← e.occupancy.fillRate
  return "\n".intercalate [
    s!"file:          {path}",
    s!"version:       {store.records.version}",
    s!"chunks:        {store.records.data.size}",
    s!"file size:     {e.size} bytes",
    s!"in use:        {inUse} bytes",
    s!"fill rate:     {fillRate}%",
    s!"fragmented:    {e.occupancy.fragmented}",
    ""]

/-- Mebibytes as a number of bytes that fits a word and is at least one block. -/
def passBytes (megabytes : Nat) : Nat := max (min (megabytes * 1024 * 1024) (UInt64.size - 1)) blockSize

def compactAndShrink (target megabytes : Nat) : Action (Store Disk) String := do
  let before := (← get).engine.size
  let spare := (← get).engine.settings.timeLimit
  let moved ← Store.compactAll spare target (passBytes megabytes)
  discard (Volume.onEngine (Engine.shrink 0))
  let e := (← get).engine
  let fillRate ← e.occupancy.fillRate
  return s!"moved: {moved}, size: {before} -> {e.size} bytes, fill rate: {fillRate}%\n"

/-- Carries a request out; returns what is to be printed. -/
def run (r : Request) : ExceptT Failure m ByteArray := do
  let store ← openStore r.settings
  let change (act : Action (Store Disk) String) : ExceptT Failure m ByteArray := do
    let (text, _) ← onStore r.file store do
      let text ← act
      Store.close
      return text
    return text.toUTF8
  match r.command with
  | .info => return (← (report r.file store : Checked String)).toUTF8
  | .put input =>
    match ← (Files.readAll input : m _) with
    | .error e => throw (.error e)
    | .ok payload => change do
      let c ← Store.write payload
      discard Store.commit
      return s!"{c.id}\n"
  | .get id output =>
    let (payload, _) ← onStore r.file store (Store.read id)
    match output with
    | none => return payload
    | some path =>
      match ← (Files.writeAll path payload : m _) with
      | .error e => throw (.error e)
      | .ok () => return .empty
  | .remove id => change do
    Store.remove id
    discard Store.commit
    return ""
  | .compact target megabytes => change (compactAndShrink target megabytes)

/-- The exit code of a command, what it prints, and the error that it reports. -/
structure Outcome where
  code : Nat
  output : ByteArray := .empty
  error : Option String := none

def Stop.outcome : Stop → Outcome
  | .usage => { code := 2 }
  | .help => { code := 0 }
  | .version => { code := 0, output := s!"chunkvault-cli {softwareVersion}\n".toUTF8 }

/-- A broken promise ends a command without a report. -/
def Failure.outcome : Failure → Outcome
  | .error e => { code := 1, error := some e.message }
  | .fault _ => { code := 101 }

def execute (args : List String) : m Outcome := do
  match parse args with
  | .error stop => return stop.outcome
  | .ok request =>
    match ← (run request : ExceptT Failure m ByteArray).run with
    | .ok output => return { code := 0, output }
    | .error f => return Failure.outcome f

end BlockStore.CommandLine
