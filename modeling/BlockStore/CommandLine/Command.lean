import BlockStore.CommandLine.Scan
import BlockStore.Settings

namespace BlockStore.CommandLine

/-- What a command line asks of a store. -/
inductive Command
  | info
  | put (input : String)
  | get (id : UInt32) (output : Option String)
  | remove (id : UInt32)
  | compact (target moveMegabytes : Nat)
  deriving DecidableEq

structure Request where
  file : String
  reuse : Bool
  command : Command
  deriving DecidableEq

def isPath (text : String) : Bool := !text.isEmpty

def isId (text : String) : Bool := (signed? UInt32.size text).isSome

def top : Grammar where
  flags := [
    { long := "file", short := some 'f', valid := isPath },
    { long := "no-reuse", takesValue := false }]
  places := none
  showsVersion := true

/-- The line behind the name of a command. -/
def grammar? : String → Option Grammar
  | "info" => some {}
  | "put" => some { places := some [isPath] }
  | "get" => some {
      flags := [{ long := "output", short := some 'o', valid := isPath }]
      places := some [isId] }
  | "remove" => some { places := some [isId] }
  | "compact" => some { flags := [
      { long := "target-fill-rate", short := some 't', valid := isId },
      { long := "move-size-mb", short := some 'm', valid := fun s => (unsigned? UInt64.size s).isSome }] }
  | _ => none

def id? (text : String) : Option UInt32 := Nat.toUInt32 <$> signed? UInt32.size text

def ofScan? (name : String) (s : Scan) : Option Command :=
  match name, s.words with
  | "info", _ => some .info
  | "put", [input] => some (.put input)
  | "get", [id] => (.get · (s.value? "output")) <$> id? id
  | "remove", [id] => .remove <$> id? id
  | "compact", _ => do
    let target ← signed? UInt32.size ((s.value? "target-fill-rate").getD "90")
    let megabytes ← unsigned? UInt64.size ((s.value? "move-size-mb").getD "16")
    return .compact target megabytes
  | _, _ => none

def parse (args : List String) : Except Stop Request := do
  let head ← scan top {} args
  match head.rest with
  | [] => .error .usage
  | ["help"] => .error .help
  | ["help", name] => .error (if name = "help" || (grammar? name).isSome then .help else .usage)
  | name :: args =>
    let some g := grammar? name | .error .usage
    let body ← scan g {} args
    let some command := ofScan? name body | .error .usage
    return {
      file := (head.value? "file").getD ({} : Settings).path
      reuse := (head.value? "no-reuse").isNone
      command }

def Request.settings (r : Request) : Settings where
  path := r.file
  readOnly := match r.command with
    | .info | .get .. => true
    | _ => false
  reuseSpace := r.reuse

end BlockStore.CommandLine
