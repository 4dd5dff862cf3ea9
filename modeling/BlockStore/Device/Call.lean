namespace BlockStore.Device

/-- What is asked of a device, without the bytes. -/
inductive Call
  | read (pos len : Nat)
  | write (pos len : Nat)
  | sync
  | truncate (size : Nat)
  deriving DecidableEq

inductive Kind
  | read
  | write
  | sync
  | truncate
  deriving DecidableEq

def Call.kind : Call → Kind
  | .read .. => .read
  | .write .. => .write
  | .sync => .sync
  | .truncate .. => .truncate

def Kind.label : Kind → String
  | .read => "read"
  | .write => "write"
  | .sync => "sync"
  | .truncate => "truncate"

end BlockStore.Device
