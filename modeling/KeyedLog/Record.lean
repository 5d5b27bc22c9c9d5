import KeyedLog.Text.Hex

/-!
# Records

What is appended to a log and what is read from it. A record without a value is a tombstone: it
removes its key.
-/
namespace KeyedLog

/-- A named piece of metadata on a record. Names may repeat, and the order counts. -/
abbrev Header := String × Bytes

/-- A record on its way to the log. -/
structure Outgoing where
  key : Bytes
  value : Option Bytes
  headers : List Header
  deriving DecidableEq, Repr

/-- A record with its place in the log. -/
structure Record where
  topic : String
  partition : Int
  offset : Int
  key : Bytes
  value : Option Bytes
  headers : List Header
  deriving DecidableEq, Repr

namespace Record

def isTombstone (r : Record) : Bool := r.value.isNone

/-- What was appended to make the record. -/
def outgoing (r : Record) : Outgoing := ⟨r.key, r.value, r.headers⟩

end Record

/-- The range of offsets a partition retains: from `low` up to but not including `high`. -/
structure Watermarks where
  low : Int
  high : Int
  deriving DecidableEq, Repr

/-- The offset of the last record written; zero where nothing ever was. -/
def Watermarks.lastWritten (w : Watermarks) : Int := if w.high = 0 then 0 else w.high - 1

/-- A topic to create. A count that is absent is left to the log. -/
structure TopicSpec where
  name : String
  partitions : Option Int
  replication : Option Int
  settings : List (String × String)
  deriving DecidableEq, Repr

/-- A topic that keeps the last record of each key. -/
def TopicSpec.compacted (name : String) : TopicSpec where
  name := name
  partitions := none
  replication := none
  settings :=
    [("cleanup.policy", "compact"), ("retention.bytes", "-1"), ("retention.ms", "-1"),
     ("min.compaction.lag.ms", "900000"), ("max.compaction.lag.ms", "3600000"),
     ("segment.ms", "7200000"), ("delete.retention.ms", "86400000"),
     ("min.cleanable.dirty.ratio", "0.90")]

inductive TopicCreation where
  | created
  | alreadyExists
  deriving DecidableEq, Repr

end KeyedLog
