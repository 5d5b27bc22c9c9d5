import KeyedLog.Position

/-!
# Start positions

Where each assigned partition of a topic starts. A ledger that holds exactly the assigned
partitions is resumed; any other ledger means a replay from the beginning of all of them.
-/
namespace KeyedLog

/-- The first offset that is consumed: the lowest there is, or a given one. -/
inductive Start where
  | beginning
  | atOffset (offset : Int)
  deriving DecidableEq, Repr

structure PartitionStart where
  partition : Int
  start : Start
  deriving DecidableEq, Repr

namespace Start

/-- The recorded offset of every assigned partition, if all have one. -/
def recorded? (topic : String) (ledger : List Position) : List Int → Option (List PartitionStart)
  | [] => some []
  | p :: rest =>
    match Position.offsetOf? ledger topic p, recorded? topic ledger rest with
    | some offset, some starts => some (⟨p, .atOffset offset⟩ :: starts)
    | _, _ => none

/-- What is resumed: nothing, unless there are as many rows for the topic as partitions assigned. -/
def resumed? (topic : String) (assigned : List Int) (ledger : List Position) :
    Option (List PartitionStart) :=
  let rows := ledger.filter fun row => row.topic == topic
  if rows.length = assigned.length then recorded? topic ledger assigned else none

def resolve (topic : String) (assigned : List Int) (ledger : List Position) :
    List PartitionStart :=
  (resumed? topic assigned ledger).getD (assigned.map fun p => ⟨p, .beginning⟩)

end Start

end KeyedLog
