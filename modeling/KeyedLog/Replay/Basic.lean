import KeyedLog.Decode
import KeyedLog.StartPosition

/-!
# Replaying a log into a store

One run of the replay of a topic, as a machine that makes one request of its surroundings after
another and goes on with the answer. The run notes the watermark of every partition, seeds and
reads the ledger, takes over the partitions, and then applies one record after another until it
is told to stop or something fails. The consumer is closed in either case.
-/
namespace KeyedLog.Replay

/-- How far a run has come, as seen from outside. -/
inductive Phase where
  | starting
  | capturingWatermark
  | subscribing
  | consuming
  | closing
  | stopped
  deriving DecidableEq, Repr

/-- The waiting times of a run, in milliseconds. -/
structure Timing where
  poll : Nat := 1000
  /-- The pause after the end of the log was reached. -/
  backoff : Nat := 8000
  watermark : Nat := 5000
  deriving DecidableEq, Repr

/-- The pause between two queries for partitions that do not show yet. -/
def retryPause : Nat := 100

structure Settings where
  topic : String
  envelope : Envelope
  /-- Whether there is a schema registry to ask. -/
  registry : Bool
  timing : Timing
  deriving DecidableEq, Repr

/-- What a poll comes back with. -/
inductive Polled where
  | record (r : Record)
  | tail
  | failed (cause : BrokerError)
  /-- The order to stop came first. -/
  | interrupted
  deriving DecidableEq, Repr

/-- What a run asks of its surroundings. -/
inductive Request where
  | createTopic (spec : TopicSpec)
  | subjects
  | clock
  | partitions (topic : String)
  | pause (time : Nat)
  | ledger
  | watermarks (topic : String) (partition : Int) (timeout : Nat)
  | advance (row : Position)
  | setWatermark (rows : List Position)
  | assign (topic : String) (starts : List PartitionStart)
  | stopped
  | poll (timeout : Nat)
  | apply (change : Change)
  | latched
  | ready
  | rest (time : Nat)
  | close
  deriving DecidableEq, Repr

/-- The answers a request can get. A rest answers whether it passed without an order to stop. -/
def Request.Answer : Request → Type
  | createTopic _ => Except BrokerError TopicCreation
  | subjects => Except BrokerError (List String)
  | clock => Nat
  | partitions _ => Except BrokerError (List Int)
  | pause _ => Unit
  | ledger => Except StateError (List Position)
  | watermarks _ _ _ => Except BrokerError Watermarks
  | advance _ => Except StateError Unit
  | setWatermark _ => Unit
  | assign _ _ => Except BrokerError Unit
  | stopped => Bool
  | poll _ => Polled
  | apply _ => Except StateError Unit
  | latched => Bool
  | ready => Except StateError Bool
  | rest _ => Bool
  | close => Except BrokerError Unit

/-- How a run ends. -/
abbrev Outcome := Except ReplayError Unit

/-- Where a run stands, which is the request it makes next. -/
inductive Stage where
  | creatingTopic
  | askingSubjects
  | startingClock (framing : Framing)
  | queryingPartitions (framing : Framing) (deadline : Nat)
  | checkingClock (framing : Framing) (deadline : Nat)
  | retrying (framing : Framing) (deadline : Nat)
  | readingLedger (framing : Framing) (partitions : List Int)
  | queryingWatermarks (framing : Framing) (partitions : List Int) (ledger : List Position)
      (noted : List Position) (partition : Int) (todo : List Int)
  | seeding (framing : Framing) (partitions : List Int) (ledger : List Position)
      (noted : List Position) (seed : Position) (todo : List Int)
  | settingWatermark (framing : Framing) (partitions : List Int) (noted : List Position)
  | rereadingLedger (framing : Framing) (partitions : List Int)
  | assigning (framing : Framing) (starts : List PartitionStart)
  | checkingStop (framing : Framing)
  | polling (framing : Framing)
  | applying (framing : Framing) (place : Position) (change : Change)
  | recording (framing : Framing) (place : Position)
  | checkingLatch (framing : Framing)
  | evaluating (framing : Framing)
  | resting (framing : Framing)
  | closing (outcome : Outcome)
  | finished (outcome : Outcome)

namespace Stage

/-- Every run starts by creating its topic. -/
def initial : Stage := creatingTopic

def phase : Stage → Phase
  | creatingTopic => .starting
  | askingSubjects => .starting
  | startingClock _ => .capturingWatermark
  | queryingPartitions _ _ => .capturingWatermark
  | checkingClock _ _ => .capturingWatermark
  | retrying _ _ => .capturingWatermark
  | readingLedger _ _ => .capturingWatermark
  | queryingWatermarks _ _ _ _ _ _ => .capturingWatermark
  | seeding _ _ _ _ _ _ => .capturingWatermark
  | settingWatermark _ _ _ => .capturingWatermark
  | rereadingLedger _ _ => .subscribing
  | assigning _ _ => .subscribing
  | checkingStop _ => .consuming
  | polling _ => .consuming
  | applying _ _ _ => .consuming
  | recording _ _ => .consuming
  | checkingLatch _ => .consuming
  | evaluating _ => .consuming
  | resting _ => .consuming
  | closing _ => .closing
  | finished _ => .stopped

/-- End the run with a failure of the log or its administration. -/
def failBroker (e : BrokerError) : Stage := closing (.error (.broker e))

/-- End the run with a failure of the store. -/
def failState (e : StateError) : Stage := closing (.error (.state e))

/-- Go on with the partitions whose watermarks are still to be noted. -/
def noteNext (framing : Framing) (partitions : List Int) (ledger noted : List Position) :
    List Int → Stage
  | [] => settingWatermark framing partitions noted
  | partition :: todo => queryingWatermarks framing partitions ledger noted partition todo

/-- Note the watermark of a partition. If the ledger has no row for it, seed one. -/
def note (topic : String) (framing : Framing) (partitions : List Int)
    (ledger noted : List Position) (partition : Int) (todo : List Int) (w : Watermarks) : Stage :=
  let noted := noted ++ [⟨topic, partition, w.lastWritten⟩]
  let seed : Position := ⟨topic, partition, w.low⟩
  if ledger.any fun row => row.samePartition seed then
    noteNext framing partitions ledger noted todo
  else seeding framing partitions ledger noted seed todo

/-- Decode a record that was polled. -/
def receive (s : Settings) (framing : Framing) (r : Record) : Stage :=
  match Decoder.decode ⟨s.envelope, framing⟩ r with
  | .ok change => applying framing r.place change
  | .error e => closing (.error e)

/-- A request, and where the run stands after each answer to it. -/
structure Ask where
  request : Request
  next : request.Answer → Stage

/-- Go on unless the store failed. -/
def unlessState {α : Type} (next : α → Stage) : Except StateError α → Stage
  | .ok x => next x
  | .error e => failState e

/-- Go on unless the log or its administration failed. -/
def unlessBroker {α : Type} (next : α → Stage) : Except BrokerError α → Stage
  | .ok x => next x
  | .error e => failBroker e

/-- What a run goes on with when it knows the partitions; there have to be some. -/
def found (framing : Framing) (deadline : Nat) : List Int → Stage
  | [] => checkingClock framing deadline
  | partitions => readingLedger framing partitions

def received (s : Settings) (framing : Framing) : Polled → Stage
  | .record r => receive s framing r
  | .tail => resting framing
  | .failed e => failBroker e
  | .interrupted => closing (.ok ())

/-- What a run asks next. A finished run asks nothing. -/
def ask? (s : Settings) : Stage → Option Ask
  | creatingTopic =>
    some ⟨.createTopic (.compacted s.topic), fun _ =>
      if s.registry then askingSubjects else startingClock {}⟩
  | askingSubjects =>
    some ⟨.subjects, fun answer => startingClock (Framing.detect s.topic (some answer))⟩
  | startingClock framing =>
    some ⟨.clock, fun (now : Nat) => queryingPartitions framing (now + s.timing.watermark)⟩
  | queryingPartitions framing deadline =>
    some ⟨.partitions s.topic, unlessBroker (found framing deadline)⟩
  | checkingClock framing deadline =>
    some ⟨.clock, fun (now : Nat) =>
      if deadline ≤ now then closing (.error (.noPartitions s.topic))
      else retrying framing deadline⟩
  | retrying framing deadline =>
    some ⟨.pause retryPause, fun _ => queryingPartitions framing deadline⟩
  | readingLedger framing partitions =>
    some ⟨.ledger, unlessState fun ledger => noteNext framing partitions ledger [] partitions⟩
  | queryingWatermarks framing partitions ledger noted partition todo =>
    some ⟨.watermarks s.topic partition s.timing.watermark,
      unlessBroker (note s.topic framing partitions ledger noted partition todo)⟩
  | seeding framing partitions ledger noted seed todo =>
    some ⟨.advance seed, unlessState fun () => noteNext framing partitions ledger noted todo⟩
  | settingWatermark framing partitions noted =>
    some ⟨.setWatermark noted, fun _ => rereadingLedger framing partitions⟩
  | rereadingLedger framing partitions =>
    some ⟨.ledger, unlessState fun ledger =>
      assigning framing (Start.resolve s.topic partitions ledger)⟩
  | assigning framing starts =>
    some ⟨.assign s.topic starts, unlessBroker fun () => checkingStop framing⟩
  | checkingStop framing =>
    some ⟨.stopped, fun (stop : Bool) => if stop then closing (.ok ()) else polling framing⟩
  | polling framing => some ⟨.poll s.timing.poll, received s framing⟩
  | applying framing place change =>
    some ⟨.apply change, unlessState fun () => recording framing place⟩
  | recording framing place =>
    some ⟨.advance place, unlessState fun () => checkingLatch framing⟩
  | checkingLatch framing =>
    some ⟨.latched, fun (latched : Bool) =>
      if latched then checkingStop framing else evaluating framing⟩
  | evaluating framing => some ⟨.ready, unlessState fun _ => checkingStop framing⟩
  | resting framing =>
    some ⟨.rest s.timing.backoff, fun (passed : Bool) =>
      if passed then checkingStop framing else closing (.ok ())⟩
  | closing outcome => some ⟨.close, fun _ => finished outcome⟩
  | finished _ => none

end Stage

/-- Surroundings of a run: how they answer each request, and what becomes of them. -/
abbrev Answering (σ : Type) := σ → (request : Request) → request.Answer × σ

/-- One request with its answer. -/
def step {σ : Type} (s : Settings) (answer : Answering σ) (stage : Stage) (world : σ) :
    Stage × σ :=
  match stage.ask? s with
  | none => (stage, world)
  | some ask =>
    let (reply, world) := answer world ask.request
    (ask.next reply, world)

/-- A number of requests, or as many as there are until the run is finished. -/
def steps {σ : Type} (s : Settings) (answer : Answering σ) : Nat → Stage → σ → Stage × σ
  | 0, stage, world => (stage, world)
  | n + 1, stage, world =>
    let (stage, world) := step s answer stage world
    steps s answer n stage world

end KeyedLog.Replay
