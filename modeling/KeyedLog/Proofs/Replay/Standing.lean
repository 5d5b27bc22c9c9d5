import KeyedLog.Proofs.Replay.History
import KeyedLog.Proofs.Replay.Tracking
import KeyedLog.Proofs.Store.Holds

/-!
# Where a replay stands

What holds of the log, the consumer and the contents of the store at each stage of a run, whatever
runs went before it: the ledger and the cursors only name offsets up to which everything has been
applied, and no cursor is behind the ledger.
-/
namespace KeyedLog.Replay

/-- What stays the same from run to run: the settings, what the registry answers, where the store
lies, and in which partition keys are at home. -/
structure Setup where
  settings : Settings
  subjects : Option (Except BrokerError (List String))
  root : Option Location
  home : Bytes → Option Int

namespace Setup

def topic (x : Setup) : String := x.settings.topic

def decoder (x : Setup) : Decoder := x.settings.decoder x.subjects

/-- The records of a key that is at home in a partition are all there. -/
def Homed (x : Setup) (log : Log) : Prop :=
  ∀ i, ∀ r ∈ (log.slot x.topic i).records, ∀ c, x.decoder.decode r = .ok c →
    ∀ j, x.home c.key = some j → j = i

end Setup

/-- The framing a stage has learned of. -/
def Stage.framing? : Stage → Option Framing
  | creatingTopic => none
  | askingSubjects => none
  | startingClock framing => some framing
  | queryingPartitions framing _ => some framing
  | checkingClock framing _ => some framing
  | retrying framing _ => some framing
  | readingLedger framing _ => some framing
  | queryingWatermarks framing _ _ _ _ _ => some framing
  | seeding framing _ _ _ _ _ => some framing
  | settingWatermark framing _ _ => some framing
  | rereadingLedger framing _ => some framing
  | assigning framing _ => some framing
  | checkingStop framing => some framing
  | polling framing => some framing
  | applying framing _ _ => some framing
  | recording framing _ => some framing
  | checkingLatch framing => some framing
  | evaluating framing => some framing
  | resting framing => some framing
  | closing _ => none
  | finished _ => none

/-- The change that is decoded and about to be applied. -/
def Stage.atHand? : Stage → Option Change
  | applying _ _ change => some change
  | _ => none

theorem Stage.atHand?_eq_some {stage : Stage} {change : Change} (h : stage.atHand? = some change) :
    ∃ framing place, stage = .applying framing place change := by
  cases stage with
  | applying framing place c =>
    obtain rfl : c = change := Option.some.inj h
    exact ⟨framing, place, rfl⟩
  | _ => cases h

/-- Only the request that makes the change at hand adds to what was applied. -/
theorem History.applied_request {h : History} (s : Settings) (hs : h.stage.atHand? = none) :
    (h.request s).applied = h.applied := by
  simp only [History.request]
  split
  · next hstage _ =>
    rw [hstage] at hs
    cases hs
  · rfl

/-- What a stage is about: the log, the consumer, and what the runs decoded and applied. -/
structure View where
  log : Log
  consumer : Consumer
  received : List Change
  applied : List (Position × Change)

namespace View

variable (x : Setup) (v : View) (m : Contents)

/-- A replay has come to an offset of a partition of the topic. -/
def Tracked (i offset : Int) : Prop :=
  (v.log.slot x.topic i).Tracked x.decoder x.home m.get? v.applied i offset

/-- Every partition has a row. -/
def Seeded : Prop := ∀ i ∈ v.log.partitionNumbers x.topic, (m.offset? x.topic i).isSome

/-- The partitions but for some have rows, and so has every row of a ledger read before. -/
structure Noting (partitions : List Int) (ledger : List Position) (todo : List Int) : Prop where
  exist : v.log.Exists x.topic
  all : partitions = v.log.partitionNumbers x.topic
  rest : ∀ i ∈ todo, i ∈ partitions
  rows : ∀ i ∈ partitions, i ∈ todo ∨ (m.offset? x.topic i).isSome
  ledger : ∀ row ∈ ledger, (m.offset? row.topic row.partition).isSome

/-- The consumer has a cursor for each partition. Each has come as far as `reach` says, and the
ledger has not come further. -/
structure Reading (reach : Cursor → Int) : Prop where
  exist : v.log.Exists x.topic
  topic : v.consumer.topic = some x.topic
  cursors : v.consumer.cursors.map Cursor.partition = v.log.partitionNumbers x.topic
  turn : v.consumer.turn < v.consumer.cursors.length
  tracked : ∀ c ∈ v.consumer.cursors, Tracked x v m c.partition (reach c)
  rows : ∀ c ∈ v.consumer.cursors, ∀ offset,
    m.offset? x.topic c.partition = some offset → offset ≤ reach c

/-- A change is at hand that a record makes; it may have been dropped from the log since. -/
structure AtHand (place : Position) (change : Change) : Prop where
  topic : place.topic = x.topic
  partition : place.partition ∈ v.log.partitionNumbers x.topic
  next : ∀ c ∈ v.consumer.cursors, c.partition = place.partition → c.next = place.offset + 1
  lt_high : place.offset < (v.log.slot x.topic place.partition).high
  decodes : ∀ r ∈ (v.log.slot x.topic place.partition).records, r.offset = place.offset →
    x.decoder.decode r = .ok change
  there : (∀ key, x.home key = none) ∨
    ∃ r ∈ (v.log.slot x.topic place.partition).records, r.offset = place.offset
  received : change.key ∈ v.received.map Change.key

/-- What holds at each stage. -/
def Stand : Stage → Prop
  | .creatingTopic => True
  | .askingSubjects => v.log.Exists x.topic ∧ x.settings.registry
  | .startingClock _ => v.log.Exists x.topic
  | .queryingPartitions _ _ => v.log.Exists x.topic
  | .checkingClock _ _ => v.log.Exists x.topic
  | .retrying _ _ => v.log.Exists x.topic
  | .readingLedger _ partitions =>
    v.log.Exists x.topic ∧ partitions = v.log.partitionNumbers x.topic
  | .queryingWatermarks _ partitions ledger _ i todo => Noting x v m partitions ledger (i :: todo)
  | .seeding _ partitions ledger _ seed todo =>
    Noting x v m partitions ledger (seed.partition :: todo) ∧ seed.topic = x.topic ∧
      Tracked x v m seed.partition seed.offset
  | .settingWatermark _ partitions _ => Noting x v m partitions [] []
  | .rereadingLedger _ partitions => Noting x v m partitions [] []
  | .assigning _ starts =>
    v.log.Exists x.topic ∧ Seeded x v m ∧
      starts = (v.log.partitionNumbers x.topic).map fun i =>
        ⟨i, .atOffset ((m.offset? x.topic i).getD 0)⟩
  | .applying _ place change =>
    Reading x v m (fun c => if c.partition = place.partition then place.offset else c.next) ∧
      AtHand x v place change
  | .recording _ place =>
    Reading x v m Cursor.next ∧ place.topic = x.topic ∧ 0 ≤ place.offset ∧
      place.partition ∈ v.log.partitionNumbers x.topic ∧
      (∀ c ∈ v.consumer.cursors, c.partition = place.partition → place.offset < c.next) ∧
      ∀ offset, m.offset? x.topic place.partition = some offset → offset ≤ place.offset
  | .checkingStop _ => Reading x v m Cursor.next
  | .polling _ => Reading x v m Cursor.next
  | .checkingLatch _ => Reading x v m Cursor.next
  | .evaluating _ => Reading x v m Cursor.next
  | .resting _ => Reading x v m Cursor.next
  | .closing _ => True
  | .finished _ => True

/-! ## What others do to the log -/

def changeLog (c : LogChange) : View := { v with log := v.log.change c }

variable {x v m} {c : LogChange}

theorem log_changeLog : (v.changeLog c).log = v.log.change c := rfl

theorem Tracked.changeLog {i offset : Int} (ht : Tracked x v m i offset) (hsound : v.log.Sound)
    (hkeep : c.Retains x.topic ∨ ∀ key, x.home key = none) :
    Tracked x (v.changeLog c) m i offset := by
  have hchanges := Log.changes_slot hsound c x.topic i
  cases hkeep with
  | inl hretains =>
    exact Partition.Tracked.changes ht hchanges (.inl (Log.grows_slot hsound hretains i))
  | inr hnone => exact Partition.Tracked.changes ht hchanges (.inr hnone)

theorem tracked_low_changeLog {i : Int} (ht : Tracked x v m i (v.log.slot x.topic i).low)
    (hsound : v.log.Sound) (hkeep : c.Retains x.topic ∨ ∀ key, x.home key = none) :
    Tracked x (v.changeLog c) m i ((v.changeLog c).log.slot x.topic i).low := by
  apply Partition.Tracked.at_low ((hsound.change c).slots x.topic i)
  cases hkeep with
  | inr hnone => exact .of_homeless hnone
  | inl hretains =>
    have hgrows := Log.grows_slot hsound hretains i
    rw [hgrows.low_eq]
    exact (Partition.Tracked.shows ht).grows hgrows

theorem Seeded.changeLog (hs : Seeded x v m) (hexist : v.log.Exists x.topic)
    (hsound : v.log.Sound) : Seeded x (v.changeLog c) m := by
  intro i hi
  rw [log_changeLog, Log.partitionNumbers_change hsound hexist] at hi
  exact hs i hi

theorem Noting.changeLog {partitions : List Int} {ledger : List Position} {todo : List Int}
    (hn : Noting x v m partitions ledger todo) (hsound : v.log.Sound) :
    Noting x (v.changeLog c) m partitions ledger todo where
  exist := hn.exist.change hsound c
  all := by
    rw [log_changeLog, Log.partitionNumbers_change hsound hn.exist]
    exact hn.all
  rest := hn.rest
  rows := hn.rows
  ledger := hn.ledger

theorem Reading.changeLog {reach : Cursor → Int} (hr : Reading x v m reach) (hsound : v.log.Sound)
    (hkeep : c.Retains x.topic ∨ ∀ key, x.home key = none) :
    Reading x (v.changeLog c) m reach where
  exist := hr.exist.change hsound c
  topic := hr.topic
  cursors := by
    rw [log_changeLog, Log.partitionNumbers_change hsound hr.exist]
    exact hr.cursors
  turn := hr.turn
  tracked := fun cursor hcursor => (hr.tracked cursor hcursor).changeLog hsound hkeep
  rows := hr.rows

theorem AtHand.changeLog {place : Position} {change : Change} (ha : AtHand x v place change)
    (hsound : v.log.Sound) (hkeep : c.Retains x.topic ∨ ∀ key, x.home key = none) :
    AtHand x (v.changeLog c) place change := by
  have hchanges := Log.changes_slot hsound c x.topic place.partition
  refine ⟨ha.topic, ?_, ha.next, ?_, ?_, ?_, ha.received⟩
  · rw [log_changeLog, Log.partitionNumbers_change hsound
      (Log.exists_of_mem_partitionNumbers ha.partition)]
    exact ha.partition
  · exact Int.lt_of_lt_of_le ha.lt_high hchanges.high_le
  · intro r hr hoffset
    rcases hchanges.mem hr with hr | hnew
    · exact ha.decodes r hr hoffset
    · have := ha.lt_high
      omega
  · cases hkeep with
    | inr hnone => exact .inl hnone
    | inl hretains =>
      refine ha.there.imp_right ?_
      rintro ⟨r, hr, hoffset⟩
      exact ⟨r, (Log.grows_slot hsound hretains place.partition).mem hr, hoffset⟩

theorem Stand.changeLog {stage : Stage} (hs : Stand x v m stage) (hsound : v.log.Sound)
    (hkeep : c.Retains x.topic ∨ ∀ key, x.home key = none) :
    Stand x (v.changeLog c) m stage := by
  cases stage with
  | creatingTopic => trivial
  | askingSubjects => exact ⟨hs.1.change hsound c, hs.2⟩
  | startingClock framing => exact hs.change hsound c
  | queryingPartitions framing deadline => exact hs.change hsound c
  | checkingClock framing deadline => exact hs.change hsound c
  | retrying framing deadline => exact hs.change hsound c
  | readingLedger framing partitions =>
    refine ⟨hs.1.change hsound c, ?_⟩
    rw [log_changeLog, Log.partitionNumbers_change hsound hs.1]
    exact hs.2
  | queryingWatermarks framing partitions ledger noted i todo =>
    exact Noting.changeLog hs hsound
  | seeding framing partitions ledger noted seed todo =>
    exact ⟨hs.1.changeLog hsound, hs.2.1, hs.2.2.changeLog hsound hkeep⟩
  | settingWatermark framing partitions noted => exact Noting.changeLog hs hsound
  | rereadingLedger framing partitions => exact Noting.changeLog hs hsound
  | assigning framing starts =>
    refine ⟨hs.1.change hsound c, hs.2.1.changeLog hs.1 hsound, ?_⟩
    rw [log_changeLog, Log.partitionNumbers_change hsound hs.1]
    exact hs.2.2
  | checkingStop framing => exact Reading.changeLog hs hsound hkeep
  | polling framing => exact Reading.changeLog hs hsound hkeep
  | applying framing place change =>
    exact ⟨hs.1.changeLog hsound hkeep, hs.2.changeLog hsound hkeep⟩
  | recording framing place =>
    obtain ⟨hreading, htopic, hzero, hpartition, hbehind⟩ := hs
    refine ⟨hreading.changeLog hsound hkeep, htopic, hzero, ?_, hbehind⟩
    rw [log_changeLog, Log.partitionNumbers_change hsound hreading.exist]
    exact hpartition
  | checkingLatch framing => exact Reading.changeLog hs hsound hkeep
  | evaluating framing => exact Reading.changeLog hs hsound hkeep
  | resting framing => exact Reading.changeLog hs hsound hkeep
  | closing outcome => trivial
  | finished outcome => trivial

end View

namespace History

def view (h : History) : View := ⟨h.log, h.world.consumer, h.received, h.applied⟩

/-- The keys, partitions and offsets that came up are no more than a tree can number. -/
structure Sized (topic : String) (h : History) : Prop where
  partitions : (h.log.partitionsOf topic).length ≤ 2 ^ 31
  offsets : ∀ i, (h.log.slot topic i).high ≤ Decimal.maxI64
  keys : ∀ d, ((h.received.map Change.key).toFinset.filter fun key => digest key = d).card < 2 ^ 32

variable (x : Setup) (h : History) (m : Contents)

/-- The store holds contents that go with the log and with where the run stands. -/
structure Tracks : Prop where
  subjects : h.world.subjects = x.subjects
  root : h.world.store.root? = x.root
  holds : h.world.store.Holds h.world.files m
  framing : ∀ framing, h.stage.framing? = some framing → framing = x.settings.framing x.subjects
  rows : ∀ topic i offset, m.offset? topic i = some offset →
    topic = x.topic ∧ i ∈ h.log.partitionNumbers x.topic ∧ h.view.Tracked x m i offset
  base : ∀ i, h.view.Tracked x m i (h.log.slot x.topic i).low
  live : ∀ key, (m.get? key).isSome → key ∈ h.received.map Change.key
  stand : h.view.Stand x m h.stage

/-- The history with a change of the log. -/
def changeLog (c : LogChange) : History := { h with world := h.world.setLog (h.log.change c) }

variable {x h m} {c : LogChange}

theorem Tracks.changeLog (ht : Tracks x h m) (hsound : h.log.Sound)
    (hkeep : c.Retains x.topic ∨ ∀ key, x.home key = none) : Tracks x (h.changeLog c) m where
  subjects := ht.subjects
  root := ht.root
  holds := ht.holds
  framing := ht.framing
  rows := by
    intro topic i offset hrow
    obtain ⟨htopic, hi, htracked⟩ := ht.rows topic i offset hrow
    have hnumbers :=
      Log.partitionNumbers_change hsound (Log.exists_of_mem_partitionNumbers hi) c
    exact ⟨htopic, hnumbers.symm ▸ hi, htracked.changeLog hsound hkeep⟩
  base := fun i => View.tracked_low_changeLog (ht.base i) hsound hkeep
  live := ht.live
  stand := ht.stand.changeLog hsound hkeep

end History

end KeyedLog.Replay
