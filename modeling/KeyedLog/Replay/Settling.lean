import KeyedLog.Replay.Surroundings

/-!
# Settling

A run that is left to itself goes on until it has reached the end of the log, where it rests, or
until it is finished.
-/
namespace KeyedLog.Replay

/-- Go on until the run rests or is finished, for at most so many requests. -/
def settleWithin (s : Settings) : Nat → Stage → Surroundings → Stage × Surroundings
  | 0, stage, w => (stage, w)
  | n + 1, stage, w =>
    match step s Surroundings.answer stage w with
    | (.resting framing, w) => (.resting framing, w)
    | (.finished outcome, w) => (.finished outcome, w)
    | (stage, w) => settleWithin s n stage w

/-- More requests than a run makes before it rests: a few for each record and each partition. -/
def settlingBound (s : Settings) (w : Surroundings) : Nat :=
  let held := w.log.partitionsOf s.topic
  let records := (held.flatMap (·.records)).length + w.schedule.due.length
  8 * (records + 3) + 4 * (held.length + w.log.defaultPartitions) +
    3 * (s.timing.watermark / retryPause + 1)

def settle (s : Settings) (stage : Stage) (w : Surroundings) : Stage × Surroundings :=
  settleWithin s (settlingBound s w) stage w

end KeyedLog.Replay
