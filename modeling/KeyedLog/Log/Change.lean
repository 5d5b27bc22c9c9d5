import KeyedLog.Log.Basic

/-!
# Changes of a log

What others do to a log while somebody reads it.
-/
namespace KeyedLog

inductive LogChange where
  | create (topic : String) (partitions : Option Int)
  | append (topic : String) (record : Outgoing)
  | truncate (topic : String) (partition offset : Int)
  /-- From now on sends are refused, or let through again. -/
  | reject (on : Bool)
  deriving DecidableEq, Repr

namespace Log

def change (log : Log) : LogChange → Log
  | .create topic partitions =>
    (log.createTopic { TopicSpec.compacted topic with partitions := partitions }).2
  | .append topic record => (log.append topic record).2
  | .truncate topic partition offset => log.truncateBefore topic partition offset
  | .reject on => { log with rejecting := on }

def changeAll (log : Log) (changes : List LogChange) : Log := changes.foldl change log

end Log

end KeyedLog
