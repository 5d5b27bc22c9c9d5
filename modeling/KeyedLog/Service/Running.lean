import KeyedLog.Http.Gateway
import KeyedLog.Replay.Settling
import KeyedLog.Service.Startup

/-!
# The running service

A service has a log of its own. The write side publishes to it, the read side replays it into a
store, and the gateway answers requests from both. When the replay fails, the service stops.
-/
namespace KeyedLog

/-- Why a service stops on its own. -/
inductive RunError where
  | store (cause : StateError)
  | replay (cause : ReplayError)
  deriving DecidableEq, Repr

def ReplayError.cause? : ReplayError → Option String
  | .broker cause => some cause.message
  | .state cause => some cause.message
  | .decrypt _ _ cause => some cause.message
  | .frame _ _ => none
  | .noPartitions _ => none

namespace RunError

def message : RunError → String
  | store _ => "failed to open state store"
  | replay cause => cause.message

/-- What is behind the message, if there is more to tell. -/
def cause? : RunError → Option String
  | store cause => some cause.message
  | replay cause => cause.cause?

end RunError

/-- The read side of a running service. -/
structure Reading where
  settings : Replay.Settings
  store : StateStore
  subjects : Option (Except BrokerError (List String))
  stage : Replay.Stage := .initial
  consumer : Consumer := {}
  signal : Replay.Signal := {}

structure Running where
  schedule : Schedule
  files : FileTree
  reading : Option Reading
  publisher : Option Publisher
  /-- What the registry saw of the service. -/
  contact : Http.Contact := .none
  supply : Supply
  drawn : Nat := 0
  issued : Nat := 0

namespace Running

/-- Start the read side: open the store, and let the replay ask the registry. -/
def startReading (s : Service) (files : FileTree) (net : Network) :
    Except RunError Reading × FileTree × Http.Contact :=
  let storage := s.config.storage
  match StateStore.openStore files storage.backend storage.location storage.password with
  | (.error e, files) => (.error (.store e), files, .none)
  | (.ok store, files) =>
    let asked := s.registry.map (·.subjects net)
    let reading : Reading :=
      { settings := ⟨s.config.topic, s.envelope, s.registry.isSome, s.config.timing⟩
        store := store
        subjects := asked.map fun (answer, _) => answer.mapError (·.toBrokerError) }
    (.ok reading, files, (asked.map Prod.snd).getD .none)

/-- Start the sides that are enabled. -/
def start (s : Service) (files : FileTree) (net : Network) (supply : Supply) :
    Except RunError Running × FileTree :=
  let log := Log.empty 1
  let publisher : Option Publisher :=
    if s.config.writes then some { topic := s.config.topic, envelope := s.envelope } else none
  let log := if s.config.writes then (log.ensureTopic s.config.topic).2 else log
  if s.config.reads then
    match startReading s files net with
    | (.error e, files, _) => (.error e, files)
    | (.ok reading, files, contact) =>
      (.ok { schedule := { log := log }, files := files, reading := some reading,
             publisher := publisher, contact := contact, supply := supply }, files)
  else
    (.ok { schedule := { log := log }, files := files, reading := none, publisher := publisher,
           supply := supply }, files)

/-- The surroundings of the replay. -/
def world (r : Running) (reading : Reading) : Replay.Surroundings :=
  { schedule := r.schedule, consumer := reading.consumer, store := reading.store,
    files := r.files, subjects := reading.subjects, signal := reading.signal }

/-- Let the replay reach the end of the log. -/
def settled (r : Running) : Running :=
  match r.reading with
  | none => r
  | some reading =>
    let (stage, w) := Replay.settle reading.settings reading.stage (r.world reading)
    { r with
      schedule := w.schedule
      files := w.files
      reading := some { reading with
        stage := stage, store := w.store, consumer := w.consumer, signal := w.signal } }

/-- How the replay ended, if it has. -/
def outcome? (r : Running) : Option Replay.Outcome :=
  match r.reading.map Reading.stage with
  | some (.finished outcome) => some outcome
  | _ => none

def gateway (r : Running) : Http.Gateway where
  log := r.schedule.log
  publisher := r.publisher
  store := r.reading.map (·.store)
  files := r.files
  supply := r.supply
  drawn := r.drawn
  issued := r.issued

/-- What is left after the gateway has answered. -/
def afterAnswer (r : Running) (g : Http.Gateway) : Running :=
  { r with
    schedule := { r.schedule with log := g.log }
    files := g.files
    reading := r.reading.map fun reading => { reading with store := g.store.getD reading.store }
    drawn := g.drawn
    issued := g.issued }

/-- Answer a request, unless the service has stopped. The replay has time to reach the end of the
log before. -/
def request (r : Running) (q : Http.Request) : Option Http.Response × Running :=
  let r := r.settled
  match r.outcome? with
  | some _ => (none, r)
  | none =>
    let (response, g) := r.gateway.serve q
    (some response, r.afterAnswer g)

/-- Tell the replay to stop. -/
def signalled (r : Running) : Running :=
  { r with
    reading := r.reading.map fun reading =>
      { reading with signal := reading.signal.give .raise } }

/-- Stop: the publisher flushes, and the replay ends. It may have failed before. -/
def stop (r : Running) : Except RunError Unit × Running :=
  let r := r.settled.signalled.settled
  let r := { r with publisher := r.publisher.map Publisher.drop }
  match r.outcome? with
  | some outcome => (outcome.mapError .replay, r)
  | none => (.ok (), r)

end Running

end KeyedLog
