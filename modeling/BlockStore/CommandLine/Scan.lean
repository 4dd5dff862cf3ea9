namespace BlockStore.CommandLine

/-- An option of a command line: `--long`, or a dash and the letter. -/
structure Flag where
  long : String
  short : Option Char := none
  takesValue : Bool := true
  valid : String → Bool := fun _ => true

/-- What a command line may hold. -/
structure Grammar where
  flags : List Flag := []
  /-- The test for each word in turn. Without them the first word ends the scan. -/
  places : Option (List (String → Bool)) := some []
  showsVersion : Bool := false

/-- Why a line is not carried out. -/
inductive Stop
  | usage
  | help
  | version
  deriving DecidableEq

/-- What was read of a line: options with their values, words, and what is left. -/
structure Scan where
  values : List (String × String) := []
  words : List String := []
  rest : List String := []

namespace Scan

def value? (s : Scan) (long : String) : Option String := (s.values.find? (·.1 = long)).map (·.2)

/-- An option is given at most once. -/
def give (s : Scan) (f : Flag) (value : String) : Except Stop Scan :=
  if (s.value? f.long).isSome || !f.valid value then .error .usage
  else .ok { s with values := (f.long, value) :: s.values }

def addWord (places : List (String → Bool)) (s : Scan) (word : String) : Except Stop Scan :=
  if (places[s.words.length]?).any (· word) then .ok { s with words := s.words ++ [word] }
  else .error .usage

end Scan

/-- What was read, and the option that takes the next argument as its value. -/
abbrev Pending := Scan × Option Flag

def Grammar.unknown {α : Type} (g : Grammar) (help version : Bool) : Except Stop α :=
  .error (if help then .help else if version && g.showsVersion then .version else .usage)

/-- Reads the letters behind a single dash. -/
def scanLetters (g : Grammar) (s : Scan) : List Char → Except Stop Pending
  | [] => .ok (s, none)
  | c :: cs =>
    match g.flags.find? (·.short = some c) with
    | none => g.unknown (c = 'h') (c = 'V')
    | some f =>
      if f.takesValue then
        match cs with
        | [] => .ok (s, some f)
        | '=' :: value => return (← s.give f (.ofList value), none)
        | value => return (← s.give f (.ofList value), none)
      else do scanLetters g (← s.give f "") cs

/-- Reads what follows two dashes. -/
def scanLong (g : Grammar) (s : Scan) (body : List Char) : Except Stop Pending :=
  let name := String.ofList (body.takeWhile (· ≠ '='))
  match g.flags.find? (·.long = name), (body.dropWhile (· ≠ '=')).tail? with
  | some f, some value =>
    if f.takesValue then return (← s.give f (.ofList value), none) else .error .usage
  | some f, none => if f.takesValue then .ok (s, some f) else return (← s.give f "", none)
  | none, none => g.unknown (name = "help") (name = "version")
  | none, some _ => .error .usage

/-- Whether an argument can be the value of the option before it. -/
def isValue (arg : String) : Bool := !arg.startsWith "-" || arg = "-"

def scan (g : Grammar) (s : Scan) : List String → Except Stop Scan
  | [] => .ok s
  | arg :: args =>
    match arg.toList, g.places with
    | ['-', '-'], none => .error .usage
    | ['-', '-'], some places => args.foldlM (Scan.addWord places) s
    | '-' :: '-' :: body, _ => do next (← scanLong g s body) args
    | '-' :: c :: cs, _ => do next (← scanLetters g s (c :: cs)) args
    | _, none => .ok { s with rest := arg :: args }
    | _, some places => do scan g (← s.addWord places arg) args
where
  next : Pending → List String → Except Stop Scan
    | (s, none), args => scan g s args
    | (_, some _), [] => .error .usage
    | (s, some f), value :: args =>
      if isValue value then do scan g (← s.give f value) args else .error .usage

def decimal? (digits : List Char) : Option Nat :=
  if digits.isEmpty || !digits.all Char.isDigit then none
  else some (digits.foldl (fun n c => 10 * n + (c.toNat - '0'.toNat)) 0)

/-- A number below `limit` in decimal digits, a plus sign allowed. -/
def unsigned? (limit : Nat) (text : String) : Option Nat :=
  let digits := match text.toList with
    | '+' :: cs => cs
    | cs => cs
  (decimal? digits).filter (· < limit)

/-- As `unsigned?`, and zero may have a minus sign. -/
def signed? (limit : Nat) (text : String) : Option Nat :=
  match text.toList with
  | '-' :: cs => (decimal? cs).filter (· = 0)
  | _ => unsigned? limit text

end BlockStore.CommandLine
