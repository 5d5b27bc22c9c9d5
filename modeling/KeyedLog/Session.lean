import KeyedLog.FileTree.Listing
import KeyedLog.Http.Gateway
import KeyedLog.Log.Opened
import KeyedLog.Replay.Rehearsal

/-!
# Sessions

A log, a store, a publisher and any number of named consumers that are used together, one
operation after another.
-/
namespace KeyedLog

structure Session where
  topic : String
  envelope : Envelope
  schedule : Schedule
  files : FileTree
  store : Option StateStore
  publisher : Publisher
  /-- Whether the publisher was given up. -/
  dropped : Bool := false
  consumers : List (String × Consumer) := []
  /-- Which sides the HTTP gateway has. -/
  reads : Bool := true
  writes : Bool := true
  supply : Supply := .serial
  drawn : Nat := 0
  issued : Nat := 0

namespace Session

def log (s : Session) : Log := s.schedule.log

def setLog (s : Session) (log : Log) : Session :=
  { s with schedule := { s.schedule with log := log } }

def changeLog (s : Session) (c : LogChange) : Session := s.setLog (s.log.change c)

/-- Use the store, if there is one. -/
def withStore {α : Type} (s : Session)
    (use : StateStore → FileTree → α × StateStore × FileTree) : Option α × Session :=
  match s.store with
  | none => (none, s)
  | some store =>
    let (answer, store, files) := use store s.files
    (some answer, { s with store := some store, files := files })

/-- Ask the store, if there is one. -/
def askStore {α : Type} (s : Session) (ask : StateStore → FileTree → α) : Option α :=
  s.store.map fun store => ask store s.files

/-- Enter rows in a ledger one by one, as far as none fails. -/
def advanceAll (store : StateStore) (files : FileTree) :
    List Position → Except StateError Unit × StateStore × FileTree
  | [] => (.ok (), store, files)
  | row :: rest =>
    match store.advance files row with
    | (.ok (), store, files) => advanceAll store files rest
    | (.error e, store, files) => (.error e, store, files)

/-- Open a store in place of the one there is; if it does not open, there is none. -/
def openStore {ε : Type} (s : Session) (opening : FileTree → Except ε StateStore × FileTree) :
    Except ε Unit × Session :=
  let (result, files) := opening s.files
  match result with
  | .ok store => (.ok (), { s with store := some store, files := files })
  | .error e => (.error e, { s with store := none, files := files })

def consumer (s : Session) (id : String) : Consumer := (Assoc.get? id s.consumers).getD {}

def setConsumer (s : Session) (id : String) (c : Consumer) : Session :=
  { s with consumers := Assoc.put id c s.consumers }

def assign (s : Session) (id topic : String) (starts : List PartitionStart) :
    Except BrokerError Unit × Session :=
  let (result, c) := (s.consumer id).assign s.log topic starts
  (result, s.setConsumer id c)

/-- Poll a consumer; the answer says how long that took. A record may be due during the poll. -/
def poll (s : Session) (id : String) (timeout : Nat) (later : Option (Nat × String × Outgoing)) :
    Except BrokerError (Option Record × Nat) × Session :=
  let start := s.schedule.now
  let schedule := match later with
    | some (after, topic, record) => s.schedule.plan ⟨start + after, topic, record⟩
    | none => s.schedule
  match schedule.poll (s.consumer id) timeout with
  | .error e => (.error e, { s with schedule := schedule })
  | .ok (record, c, schedule) =>
    (.ok (record, schedule.now - start), { s with schedule := schedule }.setConsumer id c)

/-- Poll without waiting until nothing comes, at most a number of times. -/
def drainUpTo (id : String) : Nat → Session → List Record →
    Except BrokerError (List Record) × Session
  | 0, s, found => (.ok found.reverse, s)
  | n + 1, s, found =>
    match s.poll id 0 none with
    | (.error e, s) => (.error e, s)
    | (.ok (none, _), s) => (.ok found.reverse, s)
    | (.ok (some r, _), s) => drainUpTo id n s (r :: found)

/-- Poll without waiting until nothing comes. -/
def drain (s : Session) (id : String) : Except BrokerError (List Record) × Session :=
  let c := s.consumer id
  let held := match c.topic with
    | some topic => ((s.log.partitionsOf topic).flatMap (·.records)).length
    | none => 0
  drainUpTo id (c.cursors.length * held + 1) s []

/-- The initial blocks that come next. -/
def blocks (s : Session) : Nat → Aes.Draw := fun n => s.supply.blocks (s.drawn + n)

/-- Publish a message, if the publisher was not given up. -/
def publish (s : Session) (m : Message) : Option (Except PublishError Unit) × Session :=
  if s.dropped then (none, s)
  else
    let used := { s with drawn := s.drawn + m.draws }
    match s.publisher.publish s.log s.blocks m with
    | .ok log => (some (.ok ()), used.setLog log)
    | .error e => (some (.error e), used)

def shutdown (s : Session) : Option (Except BrokerError Unit) × Session :=
  if s.dropped then (none, s)
  else
    let (result, p) := s.publisher.shutdown
    (some result, { s with publisher := p })

/-- Give the publisher up. -/
def dropPublisher (s : Session) : Session :=
  if s.dropped then s else { s with publisher := s.publisher.drop, dropped := true }

/-- The gateway to the sides there are. -/
def gateway (s : Session) (mountsAll : Bool) (ledgerFault : Option (Nat × StateError)) :
    Http.Gateway where
  log := s.log
  publisher := if s.writes ∧ ¬s.dropped then some s.publisher else none
  store := if s.reads then s.store else none
  files := s.files
  supply := s.supply
  drawn := s.drawn
  issued := s.issued
  mountsAll := mountsAll
  ledgerFault := ledgerFault

def request (s : Session) (r : Http.Request) (mountsAll : Bool)
    (ledgerFault : Option (Nat × StateError)) : Http.Response × Session :=
  let (response, g) := (s.gateway mountsAll ledgerFault).serve r
  let s := { s with drawn := g.drawn, issued := g.issued, files := g.files }
  (response, { s with store := if s.reads then g.store else s.store }.setLog g.log)

/-- Replay the log into the store, following a script. The times of the report are counted from
the start. -/
def replay (s : Session) (timing : Replay.Timing) (stopped : Bool)
    (subjects : Option (Except BrokerError (List String))) (script : Replay.Script)
    (tails : List (List LogChange)) : Option Replay.Rehearsal.Report × Session :=
  match s.store with
  | none => (none, s)
  | some store =>
    let world : Replay.Surroundings :=
      { schedule := s.schedule, store := store, files := s.files, subjects := subjects,
        signal := { flag := stopped } }
    let settings : Replay.Settings := ⟨s.topic, s.envelope, subjects.isSome, timing⟩
    let report := Replay.Rehearsal.perform settings
      { script := script, world := world, tails := tails }
    (some report,
      { s with
        schedule := report.world.schedule
        store := some report.world.store
        files := report.world.files })

end Session

end KeyedLog
