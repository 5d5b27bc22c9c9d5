import KeyedLog.Digest
import KeyedLog.Tables

/-!
# The store in memory

Entries in buckets by digest. A bucket is searched for the exact key, so that keys which share a
digest stay apart.
-/
namespace KeyedLog

structure Dict where
  buckets : List (String × List Entry) := []
  offsets : List Position := []
  deriving DecidableEq, Repr

namespace Dict

def bucket (d : Dict) (key : Bytes) : List Entry := (Assoc.get? (digest key) d.buckets).getD []

/-- Put an entry in place of the one for its key, else at the end. -/
def replace (e : Entry) : List Entry → List Entry
  | [] => [e]
  | old :: rest => if old.key = e.key then e :: rest else old :: replace e rest

def put (d : Dict) (e : Entry) : Dict :=
  { d with buckets := Assoc.put (digest e.key) (replace e (d.bucket e.key)) d.buckets }

def get? (d : Dict) (key : Bytes) : Option StoredValue :=
  ((d.bucket key).find? (·.key = key)).map Entry.stored

/-- Remove a key, and its bucket if that is empty then. -/
def remove (d : Dict) (key : Bytes) : Dict :=
  let kept := (d.bucket key).filter (·.key ≠ key)
  if kept.isEmpty then { d with buckets := Assoc.erase (digest key) d.buckets }
  else { d with buckets := Assoc.put (digest key) kept d.buckets }

/-- The number of live keys. -/
def size (d : Dict) : Nat := (d.buckets.flatMap fun (_, entries) => entries).length

/-- Set the offset of the first row for a partition, else add a row at the end. -/
def setRow (p : Position) : List Position → List Position
  | [] => [p]
  | row :: rest =>
    if row.samePartition p then { row with offset := p.offset } :: rest else row :: setRow p rest

def advance (d : Dict) (p : Position) : Dict := { d with offsets := setRow p d.offsets }

def ledger (d : Dict) : List Position := Position.sorted d.offsets

end Dict

end KeyedLog
