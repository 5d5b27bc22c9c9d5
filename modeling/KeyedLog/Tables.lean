import KeyedLog.Assoc
import KeyedLog.Position

/-!
# The tables of a state

The plain form of a state: one row for each live key, and one ledger row for each partition.
-/
namespace KeyedLog

/-- The order of ledger rows: by the bytes of the topic, then by partition. -/
def Position.atMost (a b : Position) : Bool :=
  let topicA := a.topic.toByteArray.data.toList
  let topicB := b.topic.toByteArray.data.toList
  topicA < topicB || topicA == topicB && a.partition ≤ b.partition

/-- Ledger rows in their order. -/
def Position.sorted (rows : List Position) : List Position := rows.mergeSort Position.atMost

structure Tables where
  values : List (Bytes × StoredValue) := []
  offsets : List ((String × Int) × Int) := []
  deriving DecidableEq, Repr

namespace Tables

def put (t : Tables) (key : Bytes) (stored : StoredValue) : Tables :=
  { t with values := Assoc.put key stored t.values }

def get? (t : Tables) (key : Bytes) : Option StoredValue := Assoc.get? key t.values

def remove (t : Tables) (key : Bytes) : Tables := { t with values := Assoc.erase key t.values }

def advance (t : Tables) (p : Position) : Tables :=
  { t with offsets := Assoc.put (p.topic, p.partition) p.offset t.offsets }

def ledger (t : Tables) : List Position :=
  Position.sorted (t.offsets.map fun ((topic, partition), offset) => ⟨topic, partition, offset⟩)

end Tables

end KeyedLog
