import KeyedLog.Assoc
import KeyedLog.Digest
import KeyedLog.Log.Error
import KeyedLog.Record

/-!
# The log

An in-process log of partitioned topics. Records are appended to the end of the partition their
key selects, offsets count from zero in each partition, and only a prefix of a partition can be
dropped.
-/
namespace KeyedLog

/-- The retained records of one partition; the first has the offset `low`. -/
structure Partition where
  low : Int := 0
  records : List Record := []
  deriving DecidableEq, Repr

namespace Partition

/-- The offset the next record gets. -/
def high (p : Partition) : Int := p.low + p.records.length

def watermarks (p : Partition) : Watermarks := ⟨p.low, p.high⟩

def get? (p : Partition) (offset : Int) : Option Record :=
  if offset < p.low then none else p.records[(offset - p.low).toNat]?

def append (p : Partition) (r : Record) : Partition := { p with records := p.records ++ [r] }

/-- Drop every record below an offset. Offsets are not bounded here. In 64 bits the difference to
`low` wraps around for an offset that is too far below, and then every record is dropped. -/
def truncateBefore (p : Partition) (offset : Int) : Partition :=
  let dropped := min (offset - p.low).toNat p.records.length
  { low := p.low + dropped, records := p.records.drop dropped }

end Partition

structure Log where
  /-- How many partitions a topic gets that does not ask for a number of them. -/
  defaultPartitions : Nat
  topics : List (String × List Partition) := []
  /-- Whether records sent by a publisher are refused. -/
  rejecting : Bool := false
  deriving DecidableEq, Repr

namespace Log

/-- An empty log whose topics get the given number of partitions, but at least one. -/
def empty (partitions : Int) : Log := { defaultPartitions := (max partitions 1).toNat }

/-- The partitions of a topic; none if there is no such topic. -/
def partitionsOf (log : Log) (topic : String) : List Partition :=
  (Assoc.get? topic log.topics).getD []

def partition? (log : Log) (topic : String) (partition : Int) : Option Partition :=
  if partition < 0 then none else (log.partitionsOf topic)[partition.toNat]?

/-- The numbers of the partitions of a topic. -/
def partitionNumbers (log : Log) (topic : String) : List Int :=
  (List.range (log.partitionsOf topic).length).map Int.ofNat

/-- The partition that holds all records of a key, out of a number of them. -/
def partitionFor (key : Bytes) (count : Nat) : Nat :=
  ((Digest.crc32 key) % count.toUInt32).toNat

/-- Create a topic unless it exists. A count that is absent or not positive is the default. -/
def createTopic (log : Log) (spec : TopicSpec) : TopicCreation × Log :=
  match Assoc.get? spec.name log.topics with
  | some _ => (.alreadyExists, log)
  | none =>
    let count := match spec.partitions with
      | some n => if 0 < n then n.toNat else log.defaultPartitions
      | none => log.defaultPartitions
    (.created, { log with topics := log.topics ++ [(spec.name, List.replicate count {})] })

/-- The partitions that an append finds: those of the topic, or fresh ones if there is none. -/
def partitionsFor (log : Log) (topic : String) : List Partition :=
  (Assoc.get? topic log.topics).getD (List.replicate log.defaultPartitions {})

/-- Append a record and tell its partition and offset. A missing topic is created first. -/
def append (log : Log) (topic : String) (r : Outgoing) : (Int × Int) × Log :=
  let partitions := log.partitionsFor topic
  let n := partitionFor r.key partitions.length
  let slot := partitions[n]?.getD {}
  let record : Record := ⟨topic, n, slot.high, r.key, r.value, r.headers⟩
  ((n, slot.high),
    { log with topics := Assoc.put topic (partitions.set n (slot.append record)) log.topics })

/-- The retained records of one partition. -/
def records (log : Log) (topic : String) (partition : Int) : List Record :=
  ((log.partition? topic partition).map Partition.records).getD []

/-- Drop the records of one partition below an offset; no such partition, no effect. -/
def truncateBefore (log : Log) (topic : String) (partition offset : Int) : Log :=
  match log.partition? topic partition with
  | none => log
  | some p =>
    let partitions := (log.partitionsOf topic).set partition.toNat (p.truncateBefore offset)
    { log with topics := Assoc.put topic partitions log.topics }

def watermarks (log : Log) (topic : String) (partition : Int) : Except BrokerError Watermarks :=
  match log.partition? topic partition with
  | some p => .ok p.watermarks
  | none => .error (.watermarks topic partition "unknown topic or partition")

/-- Append a record unless sends are refused. -/
def send (log : Log) (topic : String) (r : Outgoing) : Except BrokerError Log :=
  if log.rejecting then .error (.send "memory log rejecting sends")
  else .ok (log.append topic r).2

/-- Make sure a topic exists. -/
def ensureTopic (log : Log) (topic : String) : TopicCreation × Log :=
  log.createTopic (.compacted topic)

end Log

end KeyedLog
