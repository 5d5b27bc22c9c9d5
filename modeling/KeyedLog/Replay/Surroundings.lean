import KeyedLog.Log.Schedule
import KeyedLog.Replay.Basic
import KeyedLog.Store.Basic

/-!
# The surroundings of a replay

The log, a consumer on it, a store, and the order to stop, as they answer the requests of a run.
-/
namespace KeyedLog.Replay

/-- The order to stop: a flag that can be looked at, and whether there was any change of it that
has not been taken notice of. -/
structure Signal where
  flag : Bool := false
  changed : Bool := false
  deriving DecidableEq, Repr

/-- The ways to give the order: raise the flag, touch it, or give the flag up. -/
inductive StopKind where
  | raise
  | touch
  | abandon
  deriving DecidableEq, Repr

def Signal.give (s : Signal) : StopKind → Signal
  | .raise => { flag := true, changed := true }
  | .touch => { s with changed := true }
  | .abandon => { s with changed := true }

structure Surroundings where
  schedule : Schedule
  consumer : Consumer := {}
  store : StateStore
  files : FileTree := []
  /-- What the schema registry answers, if there is one. -/
  subjects : Option (Except BrokerError (List String)) := none
  signal : Signal := {}
  deriving Repr

namespace Surroundings

def log (w : Surroundings) : Log := w.schedule.log

def setLog (w : Surroundings) (log : Log) : Surroundings :=
  { w with schedule := { w.schedule with log := log } }

/-- Poll the consumer, unless there is an order to stop. -/
def poll (w : Surroundings) (timeout : Nat) : Polled × Surroundings :=
  -- A poll that is ready at once may get ahead of an order that is pending already. Nothing looks
  -- at the order between the two, so that is the run whose order is given after the poll; and the
  -- same goes for a rest.
  if w.signal.changed then (.interrupted, w)
  else
    match w.schedule.poll w.consumer timeout with
    | .error e => (.failed e, w)
    | .ok (some r, consumer, schedule) =>
      (.record r, { w with consumer := consumer, schedule := schedule })
    | .ok (none, consumer, schedule) =>
      (.tail, { w with consumer := consumer, schedule := schedule })

def answer : Answering Surroundings
  | w, .createTopic spec =>
    let (creation, log) := w.log.createTopic spec
    (.ok creation, w.setLog log)
  | w, .subjects => (w.subjects.getD (.ok []), w)
  | w, .clock => (w.schedule.now, w)
  | w, .partitions topic => (.ok (w.log.partitionNumbers topic), w)
  | w, .pause time => ((), { w with schedule := w.schedule.pause time })
  | w, .ledger => (w.store.ledger w.files, w)
  | w, .watermarks topic partition _ => (w.log.watermarks topic partition, w)
  | w, .advance row =>
    let (result, store, files) := w.store.advance w.files row
    (result, { w with store := store, files := files })
  | w, .setWatermark rows =>
    ((), { w with store := { w.store with latch := w.store.latch.setWatermark rows } })
  | w, .assign topic starts =>
    let (result, consumer) := w.consumer.assign w.log topic starts
    (result, { w with consumer := consumer })
  | w, .stopped => (w.signal.flag, w)
  | w, .poll timeout => w.poll timeout
  | w, .apply change =>
    let (result, store, files) :=
      w.store.applyChange w.files change.key change.value change.correlation
    (result, { w with store := store, files := files })
  | w, .latched => (w.store.latch.latched, w)
  | w, .ready =>
    let (result, store) := w.store.ready w.files
    (result, { w with store := store })
  | w, .rest time =>
    if w.signal.changed then (false, w)
    else (true, { w with schedule := w.schedule.pause time })
  | w, .close => (.ok (), { w with consumer := w.consumer.close })

end Surroundings

end KeyedLog.Replay
