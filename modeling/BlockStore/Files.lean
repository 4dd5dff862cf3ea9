import BlockStore.Device.Disk

namespace BlockStore

open Device

/-- Named files, as a command uses them. -/
class Files (m : Type → Type) where
  readAll : String → m (Except StoreError ByteArray)
  /-- Replaces the content of a file, or creates it. -/
  writeAll : String → ByteArray → m (Except StoreError Unit)
  openDisk : String → (readOnly : Bool) → m (Except StoreError Disk)
  /-- Brings the content of an open file back to its name. -/
  saveDisk : String → Disk → m Unit

/-- The files within reach of a working directory, each under the shortest path that leads to it.
The only directories are that one, those above it and the root. -/
structure Directory where
  files : List (String × ByteArray) := []

namespace Directory

/-- The most bytes that a name may have. -/
def nameLimit : Nat := 255

/-- A path has fewer bytes than this. -/
def pathLimit : Nat := 4096

def find? (d : Directory) (name : String) : Option ByteArray :=
  (d.files.find? (·.1 = name)).map (·.2)

def put (d : Directory) (name : String) (content : ByteArray) : Directory :=
  ⟨(name, content) :: d.files.filter (·.1 ≠ name)⟩

/-- What a path leads to. -/
inductive Place
  | directory
  | file (name : String)

/-- The directory above the one that `here` leads to; the root is above itself. -/
def above (here : String) : String := if here = "/" then here else here ++ "../"

/-- Follows a path from the directory that `here` leads to. A name with a slash behind it can only
stand for a directory, and a directory cannot be created as a file. -/
def follow (d : Directory) (creating : Bool) (here : String) :
    List String → Except DeviceError Place
  | [] => .ok .directory
  | name :: path =>
    if name = "" || name = "." then d.follow creating here path
    else if name = ".." then d.follow creating (above here) path
    else if creating && !path.isEmpty && path.all (· = "") then .error .isDirectory
    else if nameLimit < name.utf8ByteSize then .error .nameTooLong
    else if path.isEmpty then .ok (.file (here ++ name))
    else .error (if (d.find? (here ++ name)).isSome then .notDirectory else .missing)

def resolve (d : Directory) (creating : Bool) (path : String) : Except StoreError Place :=
  if path.isEmpty then .error (.device .missing)
  else if pathLimit ≤ path.utf8ByteSize then .error (.device .nameTooLong)
  else
    let found := match path.splitOn "/" with
      | "" :: path => d.follow creating "/" path
      | path => d.follow creating "" path
    found.mapError .device

def readAll (d : Directory) (path : String) : Except StoreError ByteArray := do
  match ← d.resolve false path with
  | .directory => throw (.device .isDirectory)
  | .file name =>
    match d.find? name with
    | some content => return content
    | none => throw (.device .missing)

def writeAll (d : Directory) (path : String) (content : ByteArray) :
    Except StoreError Directory := do
  match ← d.resolve true path with
  | .directory => throw (.device .isDirectory)
  | .file name => return d.put name content

/-- A directory can be opened to be read. -/
def openDisk (d : Directory) (path : String) (readOnly : Bool) : Except StoreError Disk := do
  match ← d.resolve (!readOnly) path with
  | .directory =>
    if readOnly then return .directory else throw (.device .isDirectory)
  | .file name => Disk.openFile ((d.find? name).map .ofBytes) readOnly

instance : Files (StateM Directory) where
  readAll path := return (← get).readAll path
  writeAll path content := do
    match (← get).writeAll path content with
    | .ok d => set d; return .ok ()
    | .error e => return .error e
  openDisk path readOnly := return (← get).openDisk path readOnly
  saveDisk path disk := do
    if let .ok d := (← get).writeAll path disk.content.toBytes then set d

end Directory

end BlockStore
