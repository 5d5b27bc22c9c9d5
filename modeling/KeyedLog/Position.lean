import KeyedLog.Text.Hex

/-!
# Positions

A position is an offset on one partition of a topic. A list of positions is a ledger of consumed
offsets, or a watermark that such a ledger is compared with.
-/
namespace KeyedLog

structure Position where
  topic : String
  partition : Int
  offset : Int
  deriving DecidableEq, Repr

namespace Position

/-- Whether two positions are about the same partition of the same topic. -/
def samePartition (a b : Position) : Bool := a.topic == b.topic && a.partition == b.partition

/-- The offset the first row for a partition of a topic holds. -/
def offsetOf? (ledger : List Position) (topic : String) (partition : Int) : Option Int :=
  (ledger.find? fun row => row.topic == topic && row.partition == partition).map Position.offset

end Position

/-- What a lookup of a live key yields. -/
structure StoredValue where
  value : Bytes
  correlation : String
  deriving DecidableEq, Repr

/-- A key with what is stored under it. -/
structure Entry where
  key : Bytes
  value : Bytes
  correlation : String
  deriving DecidableEq, Repr

def Entry.stored (e : Entry) : StoredValue := ⟨e.value, e.correlation⟩

end KeyedLog
