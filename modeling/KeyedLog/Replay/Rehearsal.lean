import KeyedLog.Log.Change
import KeyedLog.Replay.Surroundings

/-!
# Rehearsals

A run in surroundings that follow a script: calls fail where the script says so, the log changes
each time its end is reached, and every call is noted down with the phase and the time it was made
at.
-/
namespace KeyedLog.Replay

structure Script where
  createFails : Option String := none
  partitionsFail : Option String := none
  /-- How many queries for partitions find none. -/
  hidden : Nat := 0
  /-- The partitions found in place of those of the log. -/
  partitions : Option (List Int) := none
  assignFails : Option String := none
  /-- Which poll fails, counted from one. -/
  pollFailsAt : Option Nat := none
  closeFails : Bool := false
  /-- How the order to stop is given. -/
  stopKind : StopKind := .raise
  /-- The poll during which the order is given, if that poll delivers a record. -/
  stopAtPoll : Option Nat := none
  /-- The keys that are looked up for each view of the state. -/
  watch : List Bytes := []
  deriving Repr

/-- What the state looks like at one moment. -/
structure Snapshot where
  values : List (Except StateError (Option StoredValue))
  ledger : Except StateError (List Position)
  watermark : List Position
  latched : Bool
  deriving Repr

def Snapshot.take (store : StateStore) (files : FileTree) (watch : List Bytes) : Snapshot where
  values := watch.map (store.get? files)
  ledger := store.ledger files
  watermark := store.latch.watermark
  latched := store.latch.latched

inductive Event where
  | createTopic (topic : String) (result : Except BrokerError TopicCreation)
  | partitions (result : Except BrokerError (List Int))
  | watermarks (partition : Int) (timeout : Nat) (result : Except BrokerError Watermarks)
  | assign (starts : List PartitionStart) (result : Except BrokerError Unit)
  | polled (partition offset : Int)
  | pollFailed
  | tail (state : Snapshot)
  | close
  deriving Repr

/-- An event with the phase and the time it was noted at. -/
structure Noted where
  phase : Phase
  time : Nat
  event : Event
  deriving Repr

structure Rehearsal where
  script : Script
  world : Surroundings
  /-- The changes of the log that are still to come, one batch for each time its end is reached. -/
  tails : List (List LogChange)
  phase : Phase := .starting
  polls : Nat := 0
  queries : Nat := 0
  /-- The events so far, the last one first. -/
  noted : List Noted := []

namespace Rehearsal

def note (r : Rehearsal) (e : Event) : Rehearsal :=
  { r with noted := ⟨r.phase, r.world.schedule.now, e⟩ :: r.noted }

/-- Pass a request on to the surroundings. -/
def pass (r : Rehearsal) (request : Request) : request.Answer × Rehearsal :=
  let (reply, world) := r.world.answer request
  (reply, { r with world := world })

/-- What the reaching of the end of the log sets off: the next batch of changes, or the order to
stop. -/
def reachTail (r : Rehearsal) : Rehearsal :=
  match r.tails with
  | batch :: rest =>
    { r with world := r.world.setLog (r.world.log.changeAll batch), tails := rest }
  | [] => { r with world := { r.world with signal := r.world.signal.give r.script.stopKind } }

def snapshot (r : Rehearsal) : Snapshot := .take r.world.store r.world.files r.script.watch

def queryPartitions (r : Rehearsal) (topic : String) :
    Except BrokerError (List Int) × Rehearsal :=
  match r.script.partitionsFail with
  | some reason => (.error (.metadata reason), r)
  | none =>
    if r.queries < r.script.hidden then (.ok [], { r with queries := r.queries + 1 })
    else
      match r.script.partitions with
      | some partitions => (.ok partitions, r)
      | none => r.pass (.partitions topic)

def poll (r : Rehearsal) (timeout : Nat) : Polled × Rehearsal :=
  let r := { r with polls := r.polls + 1 }
  if r.world.signal.changed then (.interrupted, r)
  else if r.script.pollFailsAt = some r.polls then
    (.failed (.consume "scripted"), r.note .pollFailed)
  else
    match r.pass (.poll timeout) with
    | (.record record, r) =>
      let r := r.note (.polled record.partition record.offset)
      (.record record,
        if r.script.stopAtPoll = some r.polls then
          { r with world := { r.world with signal := r.world.signal.give r.script.stopKind } }
        else r)
    | (.tail, r) =>
      let r := r.note (.tail r.snapshot)
      (.tail, r.reachTail)
    | (other, r) => (other, r)

def answer : Answering Rehearsal
  | r, .createTopic spec =>
    match r.script.createFails with
    | some reason =>
      let result := .error (.topicCreation spec.name reason)
      (result, r.note (.createTopic spec.name result))
    | none =>
      let (result, r) := r.pass (.createTopic spec)
      (result, r.note (.createTopic spec.name result))
  | r, .partitions topic =>
    let (result, r) := r.queryPartitions topic
    (result, r.note (.partitions result))
  | r, .watermarks topic partition timeout =>
    let (result, r) := r.pass (.watermarks topic partition timeout)
    (result, r.note (.watermarks partition timeout result))
  | r, .assign topic starts =>
    match r.script.assignFails with
    | some reason =>
      let result := .error (.assign reason)
      (result, r.note (.assign starts result))
    | none =>
      let (result, r) := r.pass (.assign topic starts)
      (result, r.note (.assign starts result))
  | r, .poll timeout => r.poll timeout
  | r, .close =>
    let r := r.note .close
    let (result, r) := r.pass .close
    (if r.script.closeFails then .error (.consume "scripted") else result, r)
  | r, .subjects => r.pass .subjects
  | r, .clock => r.pass .clock
  | r, .pause time => r.pass (.pause time)
  | r, .ledger => r.pass .ledger
  | r, .advance row => r.pass (.advance row)
  | r, .setWatermark rows => r.pass (.setWatermark rows)
  | r, .stopped => r.pass .stopped
  | r, .apply change => r.pass (.apply change)
  | r, .latched => r.pass .latched
  | r, .ready => r.pass .ready
  | r, .rest time => r.pass (.rest time)

/-- More requests than a rehearsal can make: every delivery of a record, every reaching of the end
and every query for partitions makes a few. -/
def bound (s : Settings) (r : Rehearsal) : Nat :=
  let partitions := (r.script.partitions.getD []).length +
    (r.world.log.partitionsOf s.topic).length + r.world.log.defaultPartitions + 1
  let records := ((r.world.log.partitionsOf s.topic).flatMap (·.records)).length +
    r.tails.flatten.length + r.world.schedule.due.length
  let queries := s.timing.watermark / retryPause + r.script.hidden + 3
  3 * queries + 4 * partitions + 8 * (records + r.tails.length + 3) * partitions + 16

/-- Run until the run is finished, with each phase in view. -/
def run (s : Settings) : Nat → Stage → Rehearsal → Stage × Rehearsal
  | 0, stage, r => (stage, r)
  | _ + 1, .finished outcome, r => (.finished outcome, { r with phase := .stopped })
  | n + 1, stage, r =>
    let (stage, r) := step s answer stage { r with phase := stage.phase }
    run s n stage r

/-- What a rehearsal came to. -/
structure Report where
  outcome : Option Outcome
  events : List Noted
  after : Phase
  state : Snapshot
  world : Surroundings

def perform (s : Settings) (r : Rehearsal) : Report :=
  let (stage, r) := run s (bound s r) Stage.initial r
  { outcome := match stage with
      | .finished outcome => some outcome
      | _ => none
    events := r.noted.reverse
    after := stage.phase
    state := r.snapshot
    world := r.world }

end Rehearsal

end KeyedLog.Replay
