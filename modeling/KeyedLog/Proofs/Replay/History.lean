import KeyedLog.Proofs.Log.Reading
import KeyedLog.Replay.Surroundings

/-!
# Histories of replays

Runs that follow one another on the same store, each of them cut off anywhere, while others change
the log, order the run to stop, and ask whether the store is ready. A history notes down what the
runs decoded and applied, and which watermarks the present run captured.
-/
namespace KeyedLog.Replay

/-- The framing that every run of a topic finds. -/
def Settings.framing (s : Settings) (subjects : Option (Except BrokerError (List String))) :
    Framing :=
  if s.registry then Framing.detect s.topic (some (subjects.getD (.ok []))) else {}

def Settings.decoder (s : Settings) (subjects : Option (Except BrokerError (List String))) :
    Decoder :=
  ⟨s.envelope, s.framing subjects⟩

structure History where
  stage : Stage := Stage.initial
  world : Surroundings
  /-- The changes decoded by all runs. -/
  received : List Change := []
  /-- The changes that reached the store, with the places of their records. -/
  applied : List (Position × Change) := []
  /-- The watermarks of the present run, by partition. -/
  captured : List (Int × Watermarks) := []

namespace History

inductive Event where
  /-- The run makes its next request. -/
  | request
  /-- Others change the log. -/
  | change (c : LogChange)
  | stop (kind : StopKind)
  /-- Somebody else asks whether the store is ready. -/
  | ask
  /-- The run is cut off, if it has not ended, and the next one begins. The latch lives on in the
  same process only. -/
  | restart (latch : Latch)

def start (log : Log) (store : StateStore) (files : FileTree)
    (subjects : Option (Except BrokerError (List String))) : History where
  world := { schedule := { log := log }, store := store, files := files, subjects := subjects }

def log (h : History) : Log := h.world.log

def request (s : Settings) (h : History) : History :=
  let (stage, world) := step s Surroundings.answer h.stage h.world
  { stage := stage
    world := world
    received :=
      match h.stage, stage with
      | .polling _, .applying _ _ change => h.received ++ [change]
      | _, _ => h.received
    applied :=
      match h.stage, stage with
      | .applying _ place change, .recording _ _ => h.applied ++ [(place, change)]
      | _, _ => h.applied
    captured :=
      match h.stage with
      | .queryingWatermarks _ _ _ _ i _ =>
        match h.log.watermarks s.topic i with
        | .ok w => h.captured ++ [(i, w)]
        | .error _ => h.captured
      | _ => h.captured }

/-- Whether the store is ready, as anybody is told. -/
def ready (h : History) : Except StateError Bool := (h.world.store.ready h.world.files).1

def after (s : Settings) (h : History) : Event → History
  | .request => h.request s
  | .change c => { h with world := h.world.setLog (h.log.change c) }
  | .stop kind => { h with world := { h.world with signal := h.world.signal.give kind } }
  | .ask => { h with world := { h.world with store := (h.world.store.ready h.world.files).2 } }
  | .restart latch =>
    { h with
      stage := .initial
      world := { h.world with
        consumer := {}
        store := { h.world.store with latch := latch }
        signal := {} }
      captured := [] }

def run (s : Settings) (h : History) (events : List Event) : History := events.foldl (after s) h

variable {s : Settings} {h : History}

/-! ## What each request does -/

/-- A request goes on with what the surroundings answer. -/
theorem stage_request {ask : Stage.Ask} (hask : h.stage.ask? s = some ask) :
    (h.request s).stage = ask.next (h.world.answer ask.request).1 := by
  simp only [request, step, hask]

theorem world_request {ask : Stage.Ask} (hask : h.stage.ask? s = some ask) :
    (h.request s).world = (h.world.answer ask.request).2 := by
  simp only [request, step, hask]

theorem request_creatingTopic (hs : h.stage = .creatingTopic) :
    h.request s = { h with
      stage := if s.registry then .askingSubjects else .startingClock {}
      world := h.world.setLog (h.log.change (.create s.topic none)) } := by
  simp only [request, step, hs, Stage.ask?]
  split <;> rfl

theorem request_askingSubjects (hs : h.stage = .askingSubjects) :
    h.request s = { h with
      stage := .startingClock
        (Framing.detect s.topic (some (h.world.subjects.getD (.ok [])))) } := by
  simp only [request, step, hs, Stage.ask?]
  rfl

theorem request_startingClock {framing : Framing} (hs : h.stage = .startingClock framing) :
    h.request s = { h with
      stage := .queryingPartitions framing (h.world.schedule.now + s.timing.watermark) } := by
  simp only [request, step, hs, Stage.ask?]
  rfl

theorem request_queryingPartitions {framing : Framing} {deadline : Nat}
    (hs : h.stage = .queryingPartitions framing deadline) :
    h.request s = { h with
      stage := .found framing deadline (h.log.partitionNumbers s.topic) } := by
  simp only [request, step, hs, Stage.ask?]
  rfl

theorem request_checkingClock {framing : Framing} {deadline : Nat}
    (hs : h.stage = .checkingClock framing deadline) :
    h.request s = { h with
      stage :=
        if deadline ≤ h.world.schedule.now then .closing (.error (.noPartitions s.topic))
        else .retrying framing deadline } := by
  simp only [request, step, hs, Stage.ask?]
  rfl

theorem request_retrying {framing : Framing} {deadline : Nat}
    (hs : h.stage = .retrying framing deadline) :
    h.request s = { h with
      stage := .queryingPartitions framing deadline
      world := { h.world with schedule := h.world.schedule.pause retryPause } } := by
  simp only [request, step, hs, Stage.ask?]
  rfl

theorem request_readingLedger {framing : Framing} {partitions : List Int} {rows : List Position}
    (hs : h.stage = .readingLedger framing partitions)
    (hrows : h.world.store.ledger h.world.files = .ok rows) :
    h.request s = { h with stage := .noteNext framing partitions rows [] partitions } := by
  simp only [request, step, hs, Stage.ask?, Surroundings.answer, hrows]
  rfl

theorem request_queryingWatermarks {framing : Framing} {partitions : List Int}
    {ledger noted : List Position} {i : Int} {todo : List Int}
    (hs : h.stage = .queryingWatermarks framing partitions ledger noted i todo)
    (hi : i ∈ h.log.partitionNumbers s.topic) :
    h.request s = { h with
      stage := .note s.topic framing partitions ledger noted i todo
        (h.log.slot s.topic i).watermarks
      captured := h.captured ++ [(i, (h.log.slot s.topic i).watermarks)] } := by
  have hmarks := Log.watermarks_of_mem hi
  rw [log] at hmarks
  simp only [request, step, hs, Stage.ask?, Surroundings.answer, log, hmarks]
  rfl

theorem request_seeding {framing : Framing} {partitions : List Int}
    {ledger noted : List Position} {seed : Position} {todo : List Int}
    (hs : h.stage = .seeding framing partitions ledger noted seed todo)
    (hok : (h.world.store.advance h.world.files seed).1 = .ok ()) :
    h.request s = { h with
      stage := .noteNext framing partitions ledger noted todo
      world := { h.world with
        store := (h.world.store.advance h.world.files seed).2.1
        files := (h.world.store.advance h.world.files seed).2.2 } } := by
  simp only [request, step, hs, Stage.ask?, Surroundings.answer, hok]
  rfl

theorem request_settingWatermark {framing : Framing} {partitions : List Int}
    {noted : List Position} (hs : h.stage = .settingWatermark framing partitions noted) :
    h.request s = { h with
      stage := .rereadingLedger framing partitions
      world := { h.world with store := { h.world.store with
        latch := h.world.store.latch.setWatermark noted } } } := by
  simp only [request, step, hs, Stage.ask?]
  rfl

theorem request_rereadingLedger {framing : Framing} {partitions : List Int}
    {rows : List Position} (hs : h.stage = .rereadingLedger framing partitions)
    (hrows : h.world.store.ledger h.world.files = .ok rows) :
    h.request s = { h with
      stage := .assigning framing (Start.resolve s.topic partitions rows) } := by
  simp only [request, step, hs, Stage.ask?, Surroundings.answer, hrows]
  rfl

/-- A run whose assignment is refused closes. -/
theorem request_assigning {framing : Framing} {starts : List PartitionStart}
    (hs : h.stage = .assigning framing starts) :
    (∃ e, h.request s = { h with stage := .failBroker e }) ∨
      h.request s = { h with
        stage := .checkingStop framing
        world := { h.world with consumer := { h.world.consumer with
          topic := some s.topic
          cursors := starts.map (Consumer.starting h.log s.topic)
          turn := 0 } } } := by
  simp only [request, step, hs, Stage.ask?, Surroundings.answer]
  rcases hassign : h.world.consumer.assign h.world.log s.topic starts with ⟨e | _, c⟩
  · obtain rfl := Consumer.assign_eq_error hassign
    exact .inl ⟨e, rfl⟩
  · obtain ⟨-, rfl⟩ := Consumer.assign_eq_ok hassign
    exact .inr rfl

theorem request_checkingStop {framing : Framing} (hs : h.stage = .checkingStop framing) :
    h.request s = { h with
      stage := if h.world.signal.flag then .closing (.ok ()) else .polling framing } := by
  simp only [request, step, hs, Stage.ask?]
  rfl

/-- A poll delivers a record, or reaches the end of the log, or ends the run. -/
theorem request_polling {framing : Framing} (hs : h.stage = .polling framing)
    (hdue : h.world.schedule.due = []) :
    (∃ outcome, h.request s = { h with stage := .closing outcome }) ∨
      (∃ now, h.world.consumer.next? h.log = none ∧ h.request s = { h with
        stage := .resting framing
        world := { h.world with schedule := { h.world.schedule with now := now } } }) ∨
      ∃ r c, h.world.consumer.next? h.log = some (r, c) ∧
        ((∃ change, Decoder.decode ⟨s.envelope, framing⟩ r = .ok change ∧ h.request s = { h with
          stage := .applying framing r.place change
          world := { h.world with consumer := c }
          received := h.received ++ [change] }) ∨
        ∃ e, Decoder.decode ⟨s.envelope, framing⟩ r = .error e ∧ h.request s = { h with
          stage := .closing (.error e)
          world := { h.world with consumer := c } }) := by
  have hnext : h.world.consumer.next? h.world.schedule.log = h.world.consumer.next? h.log := rfl
  simp only [request, step, hs, Stage.ask?, Surroundings.answer, Surroundings.poll,
    Schedule.poll, hdue, Schedule.waitUntil, hnext]
  by_cases hchanged : h.world.signal.changed
  · exact .inl ⟨.ok (), by simp only [hchanged, if_true, Stage.received]⟩
  by_cases hclosed : h.world.consumer.closed
  · exact .inl ⟨.error (.broker .closed), by
      simp only [hchanged, hclosed, if_true, Bool.false_eq_true, if_false, Stage.received]
      rfl⟩
  right
  simp only [hchanged, hclosed, Bool.false_eq_true, if_false]
  cases hready : h.world.consumer.next? h.log with
  | none =>
    refine .inl ⟨max h.world.schedule.now (h.world.schedule.now + s.timing.poll), rfl, ?_⟩
    simp only [Stage.received, ← hdue]
  | some delivered =>
    obtain ⟨r, c⟩ := delivered
    refine .inr ⟨r, c, rfl, ?_⟩
    simp only [Stage.received, Stage.receive]
    cases hdecode : Decoder.decode ⟨s.envelope, framing⟩ r with
    | error e => exact .inr ⟨e, rfl, rfl⟩
    | ok change => exact .inl ⟨change, rfl, rfl⟩

theorem request_applying {framing : Framing} {place : Position} {change : Change}
    (hs : h.stage = .applying framing place change)
    (hok : (h.world.store.applyChange h.world.files change.key change.value
      change.correlation).1 = .ok ()) :
    h.request s = { h with
      stage := .recording framing place
      world := { h.world with
        store := (h.world.store.applyChange h.world.files change.key change.value
          change.correlation).2.1
        files := (h.world.store.applyChange h.world.files change.key change.value
          change.correlation).2.2 }
      applied := h.applied ++ [(place, change)] } := by
  simp only [request, step, hs, Stage.ask?, Surroundings.answer, hok]
  rfl

theorem request_recording {framing : Framing} {place : Position}
    (hs : h.stage = .recording framing place)
    (hok : (h.world.store.advance h.world.files place).1 = .ok ()) :
    h.request s = { h with
      stage := .checkingLatch framing
      world := { h.world with
        store := (h.world.store.advance h.world.files place).2.1
        files := (h.world.store.advance h.world.files place).2.2 } } := by
  simp only [request, step, hs, Stage.ask?, Surroundings.answer, hok]
  rfl

theorem request_checkingLatch {framing : Framing} (hs : h.stage = .checkingLatch framing) :
    h.request s = { h with
      stage :=
        if h.world.store.latch.latched then .checkingStop framing else .evaluating framing } := by
  simp only [request, step, hs, Stage.ask?]
  rfl

theorem request_evaluating {framing : Framing} (hs : h.stage = .evaluating framing)
    {answer : Bool} (hready : (h.world.store.ready h.world.files).1 = .ok answer) :
    h.request s = { h with
      stage := .checkingStop framing
      world := { h.world with store := (h.world.store.ready h.world.files).2 } } := by
  simp only [request, step, hs, Stage.ask?, Surroundings.answer, hready]
  rfl

theorem request_resting {framing : Framing} (hs : h.stage = .resting framing) :
    h.request s = { h with stage := .closing (.ok ()) } ∨
      h.request s = { h with
        stage := .checkingStop framing
        world := { h.world with schedule := h.world.schedule.pause s.timing.backoff } } := by
  simp only [request, step, hs, Stage.ask?, Surroundings.answer]
  by_cases hchanged : h.world.signal.changed
  · left
    simp only [hchanged, if_true]
    rfl
  · right
    simp only [hchanged, Bool.false_eq_true, if_false]
    rfl

theorem request_closing {outcome : Outcome} (hs : h.stage = .closing outcome) :
    h.request s = { h with
      stage := .finished outcome
      world := { h.world with consumer := h.world.consumer.close } } := by
  simp only [request, step, hs, Stage.ask?]
  rfl

theorem request_finished {outcome : Outcome} (hs : h.stage = .finished outcome) :
    h.request s = h := by
  obtain ⟨stage, world, received, applied, captured⟩ := h
  obtain rfl : stage = .finished outcome := hs
  rfl

/-! ## What no event undoes -/

/-- Where nothing is due, waiting lets the clock run and nothing else. -/
theorem pause_eq {schedule : Schedule} (hdue : schedule.due = []) (time : Nat) :
    schedule.pause time = { schedule with now := max schedule.now (schedule.now + time) } := by
  simp only [Schedule.pause, hdue, Schedule.waitUntil]

theorem poll_schedule {schedule schedule' : Schedule} {c c' : Consumer} {timeout : Nat}
    {delivered : Option Record} (hdue : schedule.due = [])
    (h : schedule.poll c timeout = .ok (delivered, c', schedule')) :
    schedule'.log = schedule.log ∧ schedule'.due = [] := by
  simp only [Schedule.poll, hdue, Schedule.waitUntil] at h
  split at h
  · cases h
  · cases hnext : c.next? schedule.log with
    | some found =>
      simp only [hnext, Except.ok.injEq, Prod.mk.injEq] at h
      rw [← h.2.2]
      exact ⟨rfl, hdue⟩
    | none =>
      simp only [hnext, Except.ok.injEq, Prod.mk.injEq] at h
      rw [← h.2.2]
      exact ⟨rfl, rfl⟩

/-- A request changes the log only if it creates a topic. -/
theorem answer_log {w : Surroundings} (hdue : w.schedule.due = []) (request : Request) :
    (w.answer request).2.schedule.due = [] ∧ ((w.answer request).2.log = w.log ∨
      ∃ topic count, (w.answer request).2.log = w.log.change (.create topic count)) := by
  cases request with
  | createTopic spec => exact ⟨hdue, .inr ⟨spec.name, spec.partitions, rfl⟩⟩
  | subjects => exact ⟨hdue, .inl rfl⟩
  | clock => exact ⟨hdue, .inl rfl⟩
  | partitions topic => exact ⟨hdue, .inl rfl⟩
  | pause time =>
    simp only [Surroundings.answer, pause_eq hdue]
    exact ⟨hdue, .inl rfl⟩
  | ledger => exact ⟨hdue, .inl rfl⟩
  | watermarks topic partition timeout => exact ⟨hdue, .inl rfl⟩
  | advance row => exact ⟨hdue, .inl rfl⟩
  | setWatermark rows => exact ⟨hdue, .inl rfl⟩
  | assign topic starts => exact ⟨hdue, .inl rfl⟩
  | stopped => exact ⟨hdue, .inl rfl⟩
  | poll timeout =>
    rw [Surroundings.answer, Surroundings.poll]
    split
    · exact ⟨hdue, .inl rfl⟩
    · split
      · exact ⟨hdue, .inl rfl⟩
      · next hpoll =>
        obtain ⟨hlog, hdue'⟩ := poll_schedule hdue hpoll
        exact ⟨hdue', .inl hlog⟩
      · next hpoll =>
        obtain ⟨hlog, hdue'⟩ := poll_schedule hdue hpoll
        exact ⟨hdue', .inl hlog⟩
  | apply change => exact ⟨hdue, .inl rfl⟩
  | latched => exact ⟨hdue, .inl rfl⟩
  | ready => exact ⟨hdue, .inl rfl⟩
  | rest time =>
    simp only [Surroundings.answer, pause_eq hdue]
    split
    · exact ⟨hdue, .inl rfl⟩
    · exact ⟨hdue, .inl rfl⟩
  | close => exact ⟨hdue, .inl rfl⟩

/-- Whether an event leaves the retained records of a topic alone. -/
def Event.Retains (topic : String) : Event → Prop
  | .change c => c.Retains topic
  | _ => True

/-- Whether an event leaves the records of a topic as they are. -/
def Event.Spares (topic : String) : Event → Prop
  | .change c => c.Spares topic
  | _ => True

theorem Event.Spares.retains {topic : String} {e : Event} (h : e.Spares topic) :
    e.Retains topic := by
  cases e with
  | change c => exact LogChange.Spares.retains h
  | _ => trivial

/-- Each event leaves the log as it is or makes one change of it. -/
theorem log_after (hdue : h.world.schedule.due = []) (e : Event) :
    (h.after s e).world.schedule.due = [] ∧ ((h.after s e).log = h.log ∨
      ∃ c, (h.after s e).log = h.log.change c ∧
        ∀ topic, (e.Retains topic → c.Retains topic) ∧ (e.Spares topic → c.Spares topic)) := by
  cases e with
  | request =>
    simp only [after, request, step, log]
    cases h.stage.ask? s with
    | none => exact ⟨hdue, .inl rfl⟩
    | some ask =>
      obtain ⟨hdue', hlog⟩ := answer_log hdue ask.request
      refine ⟨hdue', ?_⟩
      rcases hlog with hlog | ⟨topic, count, hlog⟩
      · exact .inl hlog
      · exact .inr ⟨.create topic count, hlog, fun _ => ⟨fun _ => trivial, fun _ => trivial⟩⟩
  | change c => exact ⟨hdue, .inr ⟨c, rfl, fun _ => ⟨id, id⟩⟩⟩
  | stop kind => exact ⟨hdue, .inl rfl⟩
  | ask => exact ⟨hdue, .inl rfl⟩
  | restart latch => exact ⟨hdue, .inl rfl⟩

/-- Nothing is due, and the log is sound. -/
structure Steady (h : History) : Prop where
  due : h.world.schedule.due = []
  sound : h.log.Sound

theorem Steady.start {log : Log} (hlog : log.Sound) (store : StateStore) (files : FileTree)
    (subjects : Option (Except BrokerError (List String))) :
    (start log store files subjects).Steady :=
  ⟨rfl, hlog⟩

theorem Steady.after (hsteady : h.Steady) (e : Event) : (h.after s e).Steady := by
  obtain ⟨hdue, hlog⟩ := log_after (s := s) hsteady.due e
  refine ⟨hdue, ?_⟩
  rcases hlog with hlog | ⟨c, hlog, -⟩
  · rw [hlog]
    exact hsteady.sound
  · rw [hlog]
    exact hsteady.sound.change c

/-- A history as it was one event earlier. -/
theorem run_concat (s : Settings) (h : History) (events : List Event) (e : Event) :
    h.run s (events ++ [e]) = (h.run s events).after s e := by
  rw [run, List.foldl_concat]
  rfl

theorem run_append (s : Settings) (h : History) (events more : List Event) :
    h.run s (events ++ more) = (h.run s events).run s more :=
  List.foldl_append

theorem Steady.run (hsteady : h.Steady) (events : List Event) : (h.run s events).Steady := by
  induction events using List.reverseRecOn with
  | nil => exact hsteady
  | append_singleton events e ih =>
    rw [run_concat]
    exact ih.after e

/-- No event takes back what was decoded. -/
theorem received_after (s : Settings) (h : History) (e : Event) :
    h.received <+: (h.after s e).received := by
  cases e with
  | request =>
    simp only [after, request]
    split
    · exact List.prefix_append _ _
    · exact List.prefix_refl _
  | change c => exact List.prefix_refl _
  | stop kind => exact List.prefix_refl _
  | ask => exact List.prefix_refl _
  | restart latch => exact List.prefix_refl _

end History

end KeyedLog.Replay
