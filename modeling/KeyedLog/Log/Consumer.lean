import KeyedLog.Log.Basic
import KeyedLog.StartPosition

/-!
# Consumers

A consumer reads the partitions assigned to it, one record at a time and round robin, each from
its own position on. Records that were dropped meanwhile are passed over.
-/
namespace KeyedLog

/-- The next offset wanted from one partition. -/
structure Cursor where
  partition : Int
  next : Int
  deriving DecidableEq, Repr

structure Consumer where
  topic : Option String := none
  cursors : List Cursor := []
  /-- Which cursor is served first at the next poll. -/
  turn : Nat := 0
  closed : Bool := false
  deriving DecidableEq, Repr

namespace Consumer

/-- The lowest retained record at or above a cursor. -/
def Cursor.available? (partitions : List Partition) (c : Cursor) : Option Record :=
  if c.partition < 0 then none
  else
    match partitions[c.partition.toNat]? with
    | none => none
    | some p => p.get? (max c.next p.low)

/-- Serve the first of `steps` cursors, from the one at `index` on, that has a record. -/
def serve (partitions : List Partition) (c : Consumer) :
    (steps index : Nat) → Option (Record × Consumer)
  | 0, _ => none
  | steps + 1, index =>
    match c.cursors[index]? with
    | none => none
    | some cursor =>
      match Cursor.available? partitions cursor with
      | some record =>
        some (record,
          { c with
            cursors := c.cursors.set index { cursor with next := record.offset + 1 }
            turn := (index + 1) % c.cursors.length })
      | none => serve partitions c steps ((index + 1) % c.cursors.length)

/-- The record a poll delivers at once, and the consumer after it. -/
def next? (log : Log) (c : Consumer) : Option (Record × Consumer) :=
  match c.topic with
  | none => none
  | some topic => serve (log.partitionsOf topic) c c.cursors.length c.turn

/-- The cursors of a list of starts, none below what its partition retains. -/
def cursorsFor (log : Log) (topic : String) :
    List PartitionStart → Except BrokerError (List Cursor)
  | [] => .ok []
  | s :: rest =>
    match log.watermarks topic s.partition with
    | .error e =>
      .error (.assign ("partition " ++ Decimal.ofInt s.partition ++ ": " ++ e.message))
    | .ok w =>
      let next := match s.start with
        | .beginning => w.low
        | .atOffset offset => max offset w.low
      match cursorsFor log topic rest with
      | .error e => .error e
      | .ok cursors => .ok (⟨s.partition, next⟩ :: cursors)

/-- Take over partitions of a topic in place of those held so far. -/
def assign (c : Consumer) (log : Log) (topic : String) (starts : List PartitionStart) :
    Except BrokerError Unit × Consumer :=
  if c.closed then (.error .closed, c)
  else
    match cursorsFor log topic starts with
    | .error e => (.error e, c)
    | .ok cursors => (.ok (), { c with topic := some topic, cursors := cursors, turn := 0 })

def close (c : Consumer) : Consumer := { c with closed := true, topic := none, cursors := [] }

end Consumer

end KeyedLog
