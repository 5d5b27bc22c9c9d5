import KeyedLog.Position

/-!
# The readiness latch

At startup the last offset written before is noted for each partition. The store is ready once
its ledger has reached that watermark everywhere, and it stays ready from then on.
-/
namespace KeyedLog

structure Latch where
  watermark? : Option (List Position) := none
  latched : Bool := false
  deriving DecidableEq, Repr

/-- How far one partition is from its target. -/
structure Progress where
  topic : String
  partition : Int
  consumed : Option Int
  target : Int
  deriving DecidableEq, Repr

namespace Latch

/-- The watermark, empty before one is set. -/
def watermark (l : Latch) : List Position := l.watermark?.getD []

def setWatermark (l : Latch) (rows : List Position) : Latch := { l with watermark? := some rows }

/-- Whether the first row for the target's partition has reached the target. -/
def reached (ledger : List Position) (target : Position) : Bool :=
  match Position.offsetOf? ledger target.topic target.partition with
  | some offset => decide (target.offset ≤ offset)
  | none => false

/-- Whether a ledger has reached a watermark. An empty watermark is never reached. -/
def caughtUp (watermark ledger : List Position) : Bool :=
  !watermark.isEmpty && watermark.all (reached ledger)

/-- Compare a ledger with the watermark, and latch if it is reached. -/
def evaluate (l : Latch) (ledger : List Position) : Bool × Latch :=
  if l.latched then (true, l)
  else if caughtUp l.watermark ledger then (true, { l with latched := true })
  else (false, l)

def progress (l : Latch) (ledger : List Position) : List Progress :=
  l.watermark.map fun target =>
    ⟨target.topic, target.partition,
      Position.offsetOf? ledger target.topic target.partition, target.offset⟩

end Latch

end KeyedLog
