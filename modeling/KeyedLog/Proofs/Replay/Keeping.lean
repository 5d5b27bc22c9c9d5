import KeyedLog.Proofs.Replay.Stalling
import KeyedLog.Proofs.Store.Surviving

/-!
# How a run keeps its ledger

A run finds rows in the ledger of its store, seeds one for each partition that has none, and enters
each record it has applied. Rows of other topics, and of partitions the topic does not have, stay as
they were found. Whatever others do meanwhile, the other rows follow from what was found, captured
and applied, but for one that is about to be entered.
-/
namespace KeyedLog

namespace Contents

/-- The rows of a topic are for given partitions only. -/
def Within (topic : String) (partitions : List Int) (m : Contents) : Prop :=
  ∀ i, (m.offset? topic i).isSome → i ∈ partitions

/-- No row of a topic is set back or given up. -/
def Below (topic : String) (m m' : Contents) : Prop :=
  ∀ i offset, m.offset? topic i = some offset →
    ∃ offset', m'.offset? topic i = some offset' ∧ offset ≤ offset'

variable {topic : String} {m m' m'' : Contents}

theorem Below.of_offset? (h : m'.offset? = m.offset?) : Below topic m m' := by
  intro i offset hrow
  exact ⟨offset, by rw [h, hrow], Int.le_refl _⟩

theorem Below.trans (h : Below topic m m') (h' : Below topic m' m'') : Below topic m m'' := by
  intro i offset hrow
  obtain ⟨offset', hrow', hle⟩ := h i offset hrow
  obtain ⟨offset'', hrow'', hle'⟩ := h' i offset' hrow'
  exact ⟨offset'', hrow'', Int.le_trans hle hle'⟩

theorem Below.advance {p : Position}
    (h : ∀ offset, m.offset? topic p.partition = some offset → offset ≤ p.offset) :
    Below topic m (m.advance p) := by
  intro i offset hrow
  rw [offset?_advance]
  split
  · next hsame =>
    obtain ⟨-, rfl⟩ := hsame
    exact ⟨p.offset, rfl, h offset hrow⟩
  · exact ⟨offset, hrow, Int.le_refl _⟩

/-- A listing tells whether a partition has a row. -/
theorem Lists.any_samePartition {rows : List Position} (h : m.Lists rows) (p : Position) :
    (rows.any fun row => row.samePartition p) = (m.offset? p.topic p.partition).isSome := by
  rw [Bool.eq_iff_iff, List.any_eq_true, Option.isSome_iff_exists]
  constructor
  · rintro ⟨row, hrow, hsame⟩
    simp only [Position.samePartition, Bool.and_eq_true, beq_iff_eq] at hsame
    rw [← hsame.1, ← hsame.2]
    exact ⟨row.offset, (h.mem row).mp hrow⟩
  · rintro ⟨offset, hoffset⟩
    refine ⟨⟨p.topic, p.partition, offset⟩, (h.mem _).mpr hoffset, ?_⟩
    simp [Position.samePartition]

end Contents

namespace StateStore

variable {s : StateStore} {files : FileTree} {m : Contents}

theorem Carries.applyChange (h : s.Carries files m) (hspace : s.Spacious files) (c : Change) :
    s.GoesOn (m.apply c) (s.applyChange files c.key c.value c.correlation) := by
  obtain ⟨k, value, correlation⟩ := c
  cases value with
  | some value => exact h.put hspace k value correlation
  | none => exact h.remove hspace k

theorem root?_of_backing {s' : StateStore} (h : s'.backing = s.backing) : s'.root? = s.root? := by
  rw [root?, root?, h]

theorem root?_advance (s : StateStore) (files : FileTree) (p : Position) :
    (s.advance files p).2.1.root? = s.root? := by
  obtain ⟨backing, latch⟩ := s
  cases backing <;> rfl

theorem root?_applyChange (s : StateStore) (files : FileTree) (c : Change) :
    (s.applyChange files c.key c.value c.correlation).2.1.root? = s.root? := by
  obtain ⟨backing, latch⟩ := s
  obtain ⟨key, value, correlation⟩ := c
  cases value <;> cases backing <;> rfl

end StateStore

/-- A consumer that has delivered a record, with its cursor behind that. -/
def Consumer.moved (c : Consumer) (k : Nat) (cursor : Cursor) (r : Record) : Consumer :=
  { c with
    cursors := c.cursors.set k { cursor with next := r.offset + 1 }
    turn := (k + 1) % c.cursors.length }

namespace Replay

/-- The row that is about to be entered in the ledger. -/
def Stage.entering? : Stage → Option Position
  | seeding _ _ _ _ seed _ => some seed
  | recording _ place => some place
  | _ => none

theorem Stage.inFlight?_noteNext (framing : Framing) (partitions : List Int)
    (ledger noted : List Position) (todo : List Int) :
    (noteNext framing partitions ledger noted todo).inFlight? = none := by
  cases todo <;> rfl

/-! ## What the rows follow from -/

/-- The offset of the last record of a partition that was applied. -/
def lastApplied? (applied : List (Position × Change)) (topic : String) (i : Int) : Option Int :=
  (applied.filter fun a => a.1.topic = topic ∧ a.1.partition = i).getLast?.map fun a => a.1.offset

/-- The low watermark that was captured for a partition. -/
def lowMark? (captured : List (Int × Watermarks)) (i : Int) : Option Int :=
  (captured.find? fun c => c.1 = i).map fun c => c.2.low

theorem lastApplied?_concat (applied : List (Position × Change)) (place : Position)
    (change : Change) (topic : String) (i : Int) :
    lastApplied? (applied ++ [(place, change)]) topic i =
      if place.topic = topic ∧ place.partition = i then some place.offset
      else lastApplied? applied topic i := by
  rw [lastApplied?, lastApplied?, List.filter_append]
  split
  · next h =>
    rw [List.filter_cons_of_pos (by simpa using h), List.filter_nil, List.getLast?_concat]
    rfl
  · next h =>
    rw [List.filter_cons_of_neg (by simpa using h), List.filter_nil, List.append_nil]

variable {captured : List (Int × Watermarks)} {i : Int}

theorem lowMark?_eq_none_iff : lowMark? captured i = none ↔ i ∉ captured.map Prod.fst := by
  simp only [lowMark?, Option.map_eq_none_iff, List.find?_eq_none, decide_eq_true_eq, List.mem_map,
    not_exists, not_and]

theorem exists_mem_of_lowMark? {low : Int} (h : lowMark? captured i = some low) :
    ∃ w, (i, w) ∈ captured ∧ w.low = low := by
  obtain ⟨c, hfind, hlow⟩ := Option.map_eq_some_iff.mp h
  have hi := List.find?_some hfind
  simp only [decide_eq_true_eq] at hi
  subst hi
  exact ⟨c.2, List.mem_of_find?_eq_some hfind, hlow⟩

theorem lowMark?_concat_self (h : i ∉ captured.map Prod.fst) (w : Watermarks) :
    lowMark? (captured ++ [(i, w)]) i = some w.low := by
  rw [← lowMark?_eq_none_iff, lowMark?, Option.map_eq_none_iff] at h
  simp [lowMark?, List.find?_append, h]

theorem lowMark?_concat_of_ne {j : Int} (h : j ≠ i) (w : Watermarks) :
    lowMark? (captured ++ [(j, w)]) i = lowMark? captured i := by
  simp [lowMark?, List.find?_append, h]

namespace History

/-- The row a run keeps for a partition: that of the last record it applied, or else the one it
found, or else the low watermark it captured. -/
def row? (h : History) (topic : String) (i : Int) (found : Option Int) : Option Int :=
  (lastApplied? h.applied topic i).or (found.or (lowMark? h.captured i))

/-- What a tree has room for at a moment of a run: partitions and offsets have the widths they are
kept with, and no directory is full. -/
structure Roomy (topic : String) (h : History) : Prop where
  partitions : (h.log.partitionsOf topic).length ≤ 2 ^ 31
  offsets : ∀ i, (h.log.slot topic i).high ≤ Decimal.maxI64
  files : h.world.store.Spacious h.world.files

end History

/-- A consumer has a cursor for each partition. Unless rows of the topic were found for others, the
ledger has not come further than `reach` says. -/
structure Consuming (topic : String) (found : Contents) (partitions : List Int)
    (captured : List (Int × Watermarks)) (consumer : Consumer) (m : Contents)
    (reach : Cursor → Int) : Prop where
  captured : captured.map Prod.fst = partitions
  reads : consumer.topic = some topic
  cursors : consumer.cursors.map Cursor.partition = partitions
  rows : found.Within topic partitions → ∀ c ∈ consumer.cursors, ∀ offset,
    m.offset? topic c.partition = some offset → offset ≤ reach c

/-- A record has been delivered and its cursor has come behind it. -/
structure Delivered (topic : String) (partitions : List Int) (consumer : Consumer)
    (place : Position) : Prop where
  reads : place.topic = topic
  partition : place.partition ∈ partitions
  behind : ∀ c ∈ consumer.cursors, c.partition = place.partition → place.offset ≤ c.next

/-- How far the ledger may come while a record is at hand. -/
def upTo (place : Position) (c : Cursor) : Int :=
  if c.partition = place.partition then place.offset else c.next

section Delivery

variable {topic : String} {found m : Contents} {partitions : List Int}
  {captured : List (Int × Watermarks)} {consumer : Consumer} {log : Log} {k : Nat}
  {cursor : Cursor} {r : Record}

theorem Consuming.deliver
    (hc : Consuming topic found partitions captured consumer m Cursor.next)
    (hnodup : partitions.Nodup) (hsound : log.Sound)
    (hcursor : consumer.cursors[k]? = some cursor)
    (hget : (log.slot topic cursor.partition).get?
      (max cursor.next (log.slot topic cursor.partition).low) = some r) :
    Consuming topic found partitions captured (consumer.moved k cursor r) m (upTo r.place) ∧
      Delivered topic partitions (consumer.moved k cursor r) r.place := by
  have hslot := hsound.slots topic cursor.partition
  obtain ⟨hrecord, hoffset⟩ := hslot.get?_eq_some_iff.mp hget
  obtain ⟨hplace, -, -⟩ := hslot.place hrecord
  have hpartition : r.place.partition = cursor.partition := by rw [hplace]
  have hmem := List.mem_of_getElem? hcursor
  refine ⟨⟨hc.captured, hc.reads, (Consumer.map_partition_set hcursor).trans hc.cursors, ?_⟩,
    by rw [hplace], ?_, ?_⟩
  · intro hwithin moved hmoved offset hrow
    rw [upTo]
    split
    · next hi =>
      -- the row was not beyond the cursor, and the record is not before it
      rw [hi, hpartition] at hrow
      have hle := hc.rows hwithin cursor hmem offset hrow
      change offset ≤ r.offset
      omega
    · next hi =>
      rcases Consumer.mem_set_cursor hmoved with rfl | ⟨j, -, hj⟩
      · exact absurd hpartition.symm hi
      · exact hc.rows hwithin moved (List.mem_of_getElem? hj) offset hrow
  · rw [hpartition, ← hc.cursors]
    exact List.mem_map_of_mem hmem
  · intro moved hmoved hi
    have hnext := Consumer.next_of_mem_set (hc.cursors ▸ hnodup) hcursor hmoved
      (hi.trans hpartition)
    change r.offset ≤ moved.next
    omega

end Delivery

/-- What a run has captured and applied at each stage, and what it goes by there. -/
def Pace (topic : String) (found : Contents) (partitions : List Int)
    (captured : List (Int × Watermarks)) (applied : List (Position × Change))
    (consumer : Consumer) (m : Contents) : Stage → Prop
  | .creatingTopic => captured = [] ∧ applied = []
  | .askingSubjects => captured = [] ∧ applied = []
  | .startingClock _ => captured = [] ∧ applied = []
  | .queryingPartitions _ _ => captured = [] ∧ applied = []
  | .checkingClock _ _ => captured = [] ∧ applied = []
  | .retrying _ _ => captured = [] ∧ applied = []
  | .readingLedger _ all => captured = [] ∧ applied = [] ∧ all = partitions
  | .queryingWatermarks _ all ledger _ i todo =>
    applied = [] ∧ all = partitions ∧ captured.map Prod.fst ++ i :: todo = partitions ∧
      found.Lists ledger
  | .seeding _ all ledger _ seed todo =>
    applied = [] ∧ all = partitions ∧ captured.map Prod.fst ++ todo = partitions ∧
      found.Lists ledger ∧ seed.topic = topic ∧
      lowMark? captured seed.partition = some seed.offset ∧
      found.offset? topic seed.partition = none ∧ m.offset? topic seed.partition = none
  | .settingWatermark _ all _ =>
    applied = [] ∧ all = partitions ∧ captured.map Prod.fst = partitions
  | .rereadingLedger _ all =>
    applied = [] ∧ all = partitions ∧ captured.map Prod.fst = partitions
  | .assigning _ starts =>
    applied = [] ∧ captured.map Prod.fst = partitions ∧
      ∃ rows, m.Lists rows ∧ starts = Start.resolve topic partitions rows
  | .applying _ place _ =>
    Consuming topic found partitions captured consumer m (upTo place) ∧
      Delivered topic partitions consumer place
  | .recording _ place =>
    Consuming topic found partitions captured consumer m (upTo place) ∧
      Delivered topic partitions consumer place ∧
      lastApplied? applied topic place.partition = some place.offset
  | .closing outcome => outcome = .ok () → captured.map Prod.fst = partitions
  | .finished outcome => outcome = .ok () → captured.map Prod.fst = partitions
  | _ => Consuming topic found partitions captured consumer m Cursor.next

/-- The watermark of the next partition is captured, if there is one. -/
theorem Pace.noteNext {topic : String} {found : Contents} {partitions : List Int}
    {captured : List (Int × Watermarks)} {consumer : Consumer} {m : Contents} {framing : Framing}
    {ledger noted : List Position} {todo : List Int}
    (hall : captured.map Prod.fst ++ todo = partitions) (hfound : found.Lists ledger) :
    Pace topic found partitions captured [] consumer m
      (.noteNext framing partitions ledger noted todo) := by
  cases todo with
  | nil => exact ⟨rfl, rfl, by rw [← hall, List.append_nil]⟩
  | cons i todo => exact ⟨rfl, rfl, hall, hfound⟩

namespace History

/-- How the ledger of a run has to do with the one that was found, and with the partitions that the
topic has once it is there. -/
structure Keeps (s : Settings) (found : Contents) (partitions : List Int) (h : History)
    (m : Contents) : Prop where
  carries : h.world.store.Carries h.world.files m
  exist : h.stage = .creatingTopic ∨ h.log.Exists s.topic
  numbers : h.log.Exists s.topic → h.log.partitionNumbers s.topic = partitions
  opened : h.stage.phase ≠ .stopped → h.world.consumer.closed = false
  others : ∀ topic i, topic ≠ s.topic ∨ i ∉ partitions → m.offset? topic i = found.offset? topic i
  rows : ∀ i ∈ partitions, h.stage.entering?.map Position.partition ≠ some i →
    m.offset? s.topic i = h.row? s.topic i (found.offset? s.topic i)
  marks : ∀ i w, (i, w) ∈ h.captured → 0 ≤ w.low ∧ w.low ≤ (h.log.slot s.topic i).low
  flight : ∀ place, h.stage.inFlight? = some place →
    0 ≤ place.offset ∧ place.offset < (h.log.slot s.topic place.partition).high
  pace : Pace s.topic found partitions h.captured h.applied h.world.consumer m h.stage

variable {s : Settings} {found m : Contents} {partitions : List Int} {h : History}

/-! ## What no event undoes -/

theorem answer_root? (w : Surroundings) (request : Request) :
    (w.answer request).2.store.root? = w.store.root? := by
  cases request with
  | advance row => exact StateStore.root?_advance _ _ _
  | apply change => exact StateStore.root?_applyChange _ _ _
  | ready => exact StateStore.root?_of_backing (StateStore.ready_backing _ _)
  | poll timeout =>
    rw [Surroundings.answer, Surroundings.poll]
    split
    · rfl
    · split <;> rfl
  | rest time =>
    rw [Surroundings.answer]
    split <;> rfl
  | _ => rfl

/-- A store stays where it is. -/
theorem root?_run (s : Settings) (h : History) (events : List Event) :
    (h.run s events).world.store.root? = h.world.store.root? := by
  induction events using List.reverseRecOn with
  | nil => rfl
  | append_singleton events e ih =>
    rw [run_concat]
    refine Eq.trans ?_ ih
    cases e with
    | request =>
      simp only [after, request, step]
      cases (h.run s events).stage.ask? s with
      | none => rfl
      | some ask => exact answer_root? _ ask.request
    | ask => exact StateStore.root?_of_backing (StateStore.ready_backing _ _)
    | _ => rfl

namespace Keeps

/-! ## What others do -/

theorem changeLog (hk : Keeps s found partitions h m) (hsound : h.log.Sound) (c : LogChange)
    (hnumbers : (h.log.change c).Exists s.topic →
      (h.log.change c).partitionNumbers s.topic = partitions) :
    Keeps s found partitions (h.changeLog c) m where
  carries := hk.carries
  exist := hk.exist.imp_right fun hexist => hexist.change hsound c
  numbers := hnumbers
  opened := hk.opened
  others := hk.others
  rows := hk.rows
  marks := by
    intro i w hw
    obtain ⟨hzero, hlow⟩ := hk.marks i w hw
    exact ⟨hzero, Int.le_trans hlow (Log.changes_slot hsound c s.topic i).low_le⟩
  flight := by
    intro place hplace
    obtain ⟨hzero, hlt⟩ := hk.flight place hplace
    exact ⟨hzero, Int.lt_of_lt_of_le hlt
      (Log.changes_slot hsound c s.topic place.partition).high_le⟩
  pace := hk.pace

/-- The latch of a store is of no account. -/
theorem relatch (hk : Keeps s found partitions h m) (store : StateStore)
    (hbacking : store.backing = h.world.store.backing) :
    Keeps s found partitions { h with world := { h.world with store := store } } m :=
  ⟨hk.carries.of_backing hbacking, hk.exist, hk.numbers, hk.opened, hk.others, hk.rows, hk.marks,
    hk.flight, hk.pace⟩

theorem clock (hk : Keeps s found partitions h m) (now : Nat) :
    Keeps s found partitions { h with world := { h.world with
      schedule := { h.world.schedule with now := now } } } m :=
  ⟨hk.carries, hk.exist, hk.numbers, hk.opened, hk.others, hk.rows, hk.marks, hk.flight, hk.pace⟩

/-! ## One request -/

/-- A step to a stage at which no row is about to be entered, and no record is at hand. -/
theorem move (hk : Keeps s found partitions h m) {before : Stage} (hs : h.stage = before)
    (hentering : before.entering? = none) (hphase : before.phase ≠ .stopped)
    (hexist : h.log.Exists s.topic) {stage : Stage} (hflight : stage.inFlight? = none)
    (hpace : Pace s.topic found partitions h.captured h.applied h.world.consumer m stage) :
    Keeps s found partitions { h with stage := stage } m where
  carries := hk.carries
  exist := .inr hexist
  numbers := hk.numbers
  opened := fun _ => hk.opened (hs ▸ hphase)
  others := hk.others
  rows := fun i hi _ => hk.rows i hi (by rw [hs, hentering]; nofun)
  marks := hk.marks
  flight := by
    intro place hplace
    rw [hflight] at hplace
    cases hplace
  pace := hpace

/-- The topic is there as soon as it has been created. -/
theorem goOn (hk : Keeps s found partitions h m) {before : Stage} (hs : h.stage = before)
    (hcreated : before ≠ .creatingTopic) (hentering : before.entering? = none)
    (hphase : before.phase ≠ .stopped) {stage : Stage} (hflight : stage.inFlight? = none)
    (hpace : Pace s.topic found partitions h.captured h.applied h.world.consumer m stage) :
    Keeps s found partitions { h with stage := stage } m :=
  hk.move hs hentering hphase (hk.exist.resolve_left (hs ▸ hcreated)) hflight hpace

theorem nodup (hk : Keeps s found partitions h m) (hcreated : h.stage ≠ .creatingTopic) :
    partitions.Nodup := by
  rw [← hk.numbers (hk.exist.resolve_left hcreated)]
  exact h.log.nodup_partitionNumbers s.topic

/-- A row for a partition of the topic can be entered in the ledger. -/
theorem advance (hk : Keeps s found partitions h m)
    (hroomy : h.world.store.root?.isSome → h.Roomy s.topic) (hcreated : h.stage ≠ .creatingTopic)
    {place : Position} (hpartition : place.partition ∈ partitions) (hzero : 0 ≤ place.offset)
    (hhigh : place.offset ≤ (h.log.slot s.topic place.partition).high) :
    h.world.store.GoesOn (m.advance place) (h.world.store.advance h.world.files place) := by
  rw [← hk.numbers (hk.exist.resolve_left hcreated), Log.mem_partitionNumbers] at hpartition
  apply hk.carries.advance
  · intro root hroot
    exact (hroomy (by rw [hroot]; rfl)).files root hroot
  · intro hroot
    have hlength := (hroomy hroot).partitions
    have hwidth := (hroomy hroot).offsets place.partition
    simp only [StoreCall.InRange, Decimal.minI32, Decimal.maxI32, Decimal.minI64,
      Decimal.maxI64] at hwidth ⊢
    omega

/-- Rows elsewhere are not touched by a row that is entered. -/
theorem others_advance (hk : Keeps s found partitions h m) {place : Position}
    (htopic : place.topic = s.topic) (hpartition : place.partition ∈ partitions) (topic : String)
    (i : Int) (hother : topic ≠ s.topic ∨ i ∉ partitions) :
    (m.advance place).offset? topic i = found.offset? topic i := by
  rw [Contents.offset?_advance, if_neg]
  · exact hk.others topic i hother
  · rintro ⟨rfl, rfl⟩
    exact hother.elim (fun hne => hne htopic) (fun hnot => hnot hpartition)

/-- Once the row that was about to be entered is there, all rows follow. -/
theorem rows_advance (hk : Keeps s found partitions h m) {place : Position}
    (htopic : place.topic = s.topic) (hentering : h.stage.entering? = some place)
    (hrow : h.row? s.topic place.partition (found.offset? s.topic place.partition) =
      some place.offset) {i : Int} (hi : i ∈ partitions) :
    (m.advance place).offset? s.topic i = h.row? s.topic i (found.offset? s.topic i) := by
  rw [Contents.offset?_advance]
  split
  · next hsame => rw [hsame.2, hrow]
  · next hother =>
    refine hk.rows i hi fun hsame => hother ⟨htopic.symm, ?_⟩
    rw [hentering] at hsame
    exact (Option.some.inj hsame).symm

theorem request_creatingTopic (hk : Keeps s found partitions h m) (hsteady : h.Steady)
    (hnumbers : (h.request s).log.Exists s.topic →
      (h.request s).log.partitionNumbers s.topic = partitions)
    (hs : h.stage = .creatingTopic) : Keeps s found partitions (h.request s) m := by
  have hpace := hk.pace
  rw [hs] at hpace
  have hexist : (h.changeLog (.create s.topic none)).log.Exists s.topic :=
    Log.exists_createTopic _
  rw [History.request_creatingTopic hs] at hnumbers ⊢
  have hlog := hk.changeLog hsteady.sound (.create s.topic none) hnumbers
  split
  · exact hlog.move hs rfl nofun hexist rfl hpace
  · exact hlog.move hs rfl nofun hexist rfl hpace

/-- So far the rows are as they were found. -/
theorem lists_found (hk : Keeps s found partitions h m) (hentering : h.stage.entering? = none)
    (hcaptured : h.captured = []) (happlied : h.applied = []) {rows : List Position}
    (hrows : m.Lists rows) : found.Lists rows := by
  apply hrows.congr
  funext topic i
  by_cases hother : topic ≠ s.topic ∨ i ∉ partitions
  · exact (hk.others topic i hother).symm
  · push Not at hother
    obtain ⟨rfl, hi⟩ := hother
    rw [hk.rows i hi (by rw [hentering]; nofun), row?, hcaptured, happlied]
    exact (Option.or_none (o := found.offset? s.topic i)).symm

theorem request_readingLedger (hk : Keeps s found partitions h m) {framing : Framing}
    {all : List Int} (hs : h.stage = .readingLedger framing all) :
    Keeps s found partitions (h.request s) m := by
  have hpace := hk.pace
  rw [hs] at hpace
  obtain ⟨hcaptured, happlied, rfl⟩ := hpace
  obtain ⟨rows, hrows, hlists⟩ := hk.carries.ledger
  have hfound := hk.lists_found (by rw [hs]; rfl) hcaptured happlied hlists
  rw [History.request_readingLedger hs hrows]
  refine hk.goOn hs nofun rfl nofun (Stage.inFlight?_noteNext _ _ _ _ _) ?_
  rw [happlied, hcaptured]
  exact Pace.noteNext rfl hfound

/-- A watermark that is captured is that of the log. -/
theorem marks_concat (hk : Keeps s found partitions h m) (hsound : h.log.Sound) (i j : Int)
    (w : Watermarks) (hw : (j, w) ∈ h.captured ++ [(i, (h.log.slot s.topic i).watermarks)]) :
    0 ≤ w.low ∧ w.low ≤ (h.log.slot s.topic j).low := by
  rw [List.mem_append, List.mem_singleton, Prod.mk.injEq] at hw
  rcases hw with hw | ⟨rfl, rfl⟩
  · exact hk.marks j w hw
  · exact ⟨(hsound.slots s.topic j).low, Int.le_refl _⟩

/-- A partition that has no row gets one next. -/
theorem request_queryingWatermarks (hk : Keeps s found partitions h m) (hsteady : h.Steady)
    {framing : Framing} {all : List Int} {ledger noted : List Position} {i : Int} {todo : List Int}
    (hs : h.stage = .queryingWatermarks framing all ledger noted i todo) :
    Keeps s found partitions (h.request s) m := by
  have hnodup := hk.nodup (by rw [hs]; nofun)
  have hexist := hk.exist.resolve_left (by rw [hs]; nofun)
  have hopened := hk.opened (by rw [hs]; nofun)
  have hrows : ∀ j ∈ partitions, m.offset? s.topic j =
      h.row? s.topic j (found.offset? s.topic j) := fun j hj => hk.rows j hj (by rw [hs]; nofun)
  have hpace := hk.pace
  rw [hs] at hpace
  obtain ⟨happlied, rfl, hall, hfound⟩ := hpace
  have hi : i ∈ all := by rw [← hall]; simp
  have hfresh : i ∉ h.captured.map Prod.fst := by
    rw [← hall, List.nodup_append] at hnodup
    exact fun hmem => hnodup.2.2 i hmem i List.mem_cons_self rfl
  have hmark := lowMark?_concat_self hfresh (h.log.slot s.topic i).watermarks
  have hmarks := hk.marks_concat hsteady.sound i
  have hothers : ∀ j ∈ all, j ≠ i → m.offset? s.topic j =
      ({ h with captured := h.captured ++ [(i, (h.log.slot s.topic i).watermarks)] } : History).row?
        s.topic j (found.offset? s.topic j) := by
    intro j hj hne
    rw [hrows j hj, row?, row?, lowMark?_concat_of_ne (Ne.symm hne)]
  have hcaptured : (h.captured ++ [(i, (h.log.slot s.topic i).watermarks)]).map Prod.fst ++ todo =
      all := by
    rw [List.map_append, List.append_assoc]
    exact hall
  rw [History.request_queryingWatermarks hs (by rw [hk.numbers hexist]; exact hi), Stage.note]
  simp only [hfound.any_samePartition]
  cases hrow : found.offset? s.topic i with
  | some offset =>
    refine ⟨hk.carries, .inr hexist, hk.numbers, fun _ => hopened, hk.others, fun j hj _ => ?_,
      hmarks, ?_, ?_⟩
    · by_cases hne : j = i
      · rw [hne, hrows i hi, row?, row?, hrow]
        rfl
      · exact hothers j hj hne
    · intro place hplace
      rw [Option.isSome_some, if_pos rfl, Stage.inFlight?_noteNext] at hplace
      cases hplace
    · simp only [Option.isSome_some, if_true, happlied]
      exact Pace.noteNext hcaptured hfound
  | none =>
    have hnone : m.offset? s.topic i = none := by
      rw [hrows i hi, row?, hrow, happlied, lowMark?_eq_none_iff.mpr hfresh]
      rfl
    refine ⟨hk.carries, .inr hexist, hk.numbers, fun _ => hopened, hk.others,
      fun j hj hother => hothers j hj fun heq => hother (congrArg some heq.symm), hmarks, ?_, ?_⟩
    · rintro place ⟨⟩
    · exact ⟨happlied, rfl, hcaptured, hfound, rfl, hmark, hrow, hnone⟩

theorem request_seeding (hk : Keeps s found partitions h m)
    (hroomy : h.world.store.root?.isSome → h.Roomy s.topic) {framing : Framing} {all : List Int}
    {ledger noted : List Position} {seed : Position} {todo : List Int}
    (hs : h.stage = .seeding framing all ledger noted seed todo) :
    Keeps s found partitions (h.request s) (m.advance seed) := by
  have hcreated : h.stage ≠ .creatingTopic := by rw [hs]; nofun
  have hpace := hk.pace
  rw [hs] at hpace
  obtain ⟨happlied, rfl, hall, hfound, htopic, hmark, hnone, -⟩ := hpace
  obtain ⟨w, hw, hlow⟩ := exists_mem_of_lowMark? hmark
  have hpartition : seed.partition ∈ all := by
    rw [← hall]
    exact List.mem_append_left _ (List.mem_map_of_mem hw)
  obtain ⟨hzero, hle⟩ := hk.marks _ w hw
  rw [hlow] at hzero hle
  have hgoes := hk.advance hroomy hcreated hpartition hzero
    (Int.le_trans hle (h.log.slot s.topic seed.partition).low_le_high)
  have hrow : h.row? s.topic seed.partition (found.offset? s.topic seed.partition) =
      some seed.offset := by
    rw [row?, happlied, hnone, hmark]
    rfl
  rw [History.request_seeding hs hgoes.ok]
  refine ⟨hgoes.carries, .inr (hk.exist.resolve_left hcreated), hk.numbers,
    fun _ => hk.opened (by rw [hs]; nofun), hk.others_advance htopic hpartition,
    fun i hi _ => hk.rows_advance htopic (by rw [hs]; rfl) hrow hi, hk.marks, ?_, ?_⟩
  · intro place hplace
    rw [Stage.inFlight?_noteNext] at hplace
    cases hplace
  · simp only [happlied]
    exact Pace.noteNext hall hfound

/-- Once every watermark has been captured, every partition has a row. -/
theorem isSome_row (hk : Keeps s found partitions h m) (hentering : h.stage.entering? = none)
    (hcaptured : h.captured.map Prod.fst = partitions) {i : Int} (hi : i ∈ partitions) :
    (m.offset? s.topic i).isSome := by
  rw [hk.rows i hi (by rw [hentering]; nofun), row?, Option.isSome_or, Option.isSome_or]
  have hmark : (lowMark? h.captured i).isSome := by
    rw [Option.isSome_iff_ne_none, ne_eq, lowMark?_eq_none_iff, hcaptured, not_not]
    exact hi
  simp only [hmark, Bool.or_true]

/-- If no rows were found elsewhere, the partitions that have rows are those of the topic. -/
theorem row_iff (hk : Keeps s found partitions h m) (hentering : h.stage.entering? = none)
    (hcaptured : h.captured.map Prod.fst = partitions) (hwithin : found.Within s.topic partitions)
    (i : Int) : i ∈ partitions ↔ (m.offset? s.topic i).isSome := by
  refine ⟨hk.isSome_row hentering hcaptured, fun hrow => ?_⟩
  by_contra hi
  rw [hk.others s.topic i (.inr hi)] at hrow
  exact hi (hwithin i hrow)

/-- A consumer that takes over begins at the rows, unless rows were found elsewhere. -/
theorem request_assigning (hk : Keeps s found partitions h m) {framing : Framing}
    {starts : List PartitionStart} (hs : h.stage = .assigning framing starts) :
    Keeps s found partitions (h.request s) m := by
  have hnodup := hk.nodup (by rw [hs]; nofun)
  have hentering : h.stage.entering? = none := by rw [hs]; rfl
  have hpace := hk.pace
  rw [hs] at hpace
  obtain ⟨-, hcaptured, rows, hlists, hstarts⟩ := hpace
  rcases History.request_assigning (s := s) hs with ⟨e, hrequest⟩ | hrequest
  · rw [hrequest]
    exact hk.goOn hs nofun rfl nofun rfl nofun
  · rw [hrequest]
    refine ⟨hk.carries, .inr (hk.exist.resolve_left (by rw [hs]; nofun)), hk.numbers,
      fun _ => hk.opened (by rw [hs]; nofun), hk.others,
      fun i hi _ => hk.rows i hi (by rw [hentering]; nofun), hk.marks, nofun, ?_⟩
    refine ⟨hcaptured, rfl, ?_, fun hwithin c hc offset hrow => ?_⟩
    · rw [hstarts, List.map_map]
      exact Start.map_partition_resolve hnodup hlists.distinct
    · rw [hstarts, Start.resolve_eq hlists hnodup (hk.row_iff hentering hcaptured hwithin),
        List.map_map] at hc
      obtain ⟨i, hi, rfl⟩ := List.mem_map.mp hc
      change m.offset? s.topic i = some offset at hrow
      simp only [Function.comp_apply, Consumer.starting, hrow, Option.getD_some]
      exact Int.le_max_left _ _

theorem request_polling (hk : Keeps s found partitions h m) (hsteady : h.Steady)
    {framing : Framing} (hs : h.stage = .polling framing) :
    Keeps s found partitions (h.request s) m := by
  have hnodup := hk.nodup (by rw [hs]; nofun)
  have hpace := hk.pace
  rw [hs] at hpace
  have hconsuming : Consuming s.topic found partitions h.captured h.world.consumer m
    Cursor.next := hpace
  rcases History.request_polling (s := s) hs hsteady.due with
    ⟨outcome, hrequest⟩ | ⟨now, -, hrequest⟩ | ⟨r, c, hnext, hdelivered⟩
  · rw [hrequest]
    exact hk.goOn hs nofun rfl nofun rfl fun _ => hconsuming.captured
  · rw [hrequest]
    exact (hk.clock now).goOn hs nofun rfl nofun rfl hconsuming
  obtain ⟨k, cursor, hcursor, hget, rfl⟩ := Consumer.next?_eq_some hconsuming.reads hnext
  obtain ⟨hreading, hplaced⟩ := hconsuming.deliver hnodup hsteady.sound hcursor hget
  have hslot := hsteady.sound.slots s.topic cursor.partition
  obtain ⟨hplace, hlow, hlt⟩ := hslot.place (hslot.get?_eq_some_iff.mp hget).1
  have hkept : ∀ (stage : Stage) (received : List Change),
      (∀ place, stage.inFlight? = some place → place = r.place) →
      Pace s.topic found partitions h.captured h.applied
        (h.world.consumer.moved k cursor r) m stage →
      Keeps s found partitions { h with
        stage := stage
        world := { h.world with consumer := h.world.consumer.moved k cursor r }
        received := received } m := by
    intro stage received hflight hpace'
    refine ⟨hk.carries, .inr (hk.exist.resolve_left (by rw [hs]; nofun)), hk.numbers,
      fun _ => hk.opened (by rw [hs]; nofun), hk.others,
      fun i hi _ => hk.rows i hi (by rw [hs]; nofun), hk.marks, fun place hat => ?_, hpace'⟩
    obtain rfl := hflight place hat
    rw [hplace]
    exact ⟨Int.le_trans hslot.low hlow, hlt⟩
  rcases hdelivered with ⟨change, -, hrequest⟩ | ⟨e, -, hrequest⟩
  · rw [hrequest]
    exact hkept _ _ (fun place hat => (Option.some.inj hat).symm) ⟨hreading, hplaced⟩
  · rw [hrequest]
    exact hkept _ _ nofun nofun

/-- What is applied is not in the ledger yet. -/
theorem request_applying (hk : Keeps s found partitions h m)
    (hroomy : h.world.store.root?.isSome → h.Roomy s.topic) {framing : Framing} {place : Position}
    {change : Change} (hs : h.stage = .applying framing place change) :
    Keeps s found partitions (h.request s) (m.apply change) := by
  have hpace := hk.pace
  rw [hs] at hpace
  obtain ⟨hreading, hplaced⟩ := hpace
  have hgoes := hk.carries.applyChange
    (fun root hroot => (hroomy (by rw [hroot]; rfl)).files root hroot) change
  have hlast := lastApplied?_concat h.applied place change s.topic place.partition
  rw [if_pos ⟨hplaced.reads, rfl⟩] at hlast
  rw [History.request_applying hs hgoes.ok]
  refine ⟨hgoes.carries, .inr (hk.exist.resolve_left (by rw [hs]; nofun)), hk.numbers,
    fun _ => hk.opened (by rw [hs]; nofun), ?_, fun i hi hother => ?_, hk.marks,
    fun place' hat => hk.flight place' (by rw [hs]; exact hat), ?_⟩
  · rw [Contents.offset?_apply]
    exact hk.others
  · have hother' : place.partition ≠ i := fun heq => hother (congrArg some heq)
    rw [Contents.offset?_apply, hk.rows i hi (by rw [hs]; nofun), row?, row?,
      lastApplied?_concat, if_neg fun hsame => hother' hsame.2]
  · refine ⟨⟨hreading.captured, hreading.reads, hreading.cursors, ?_⟩, hplaced, hlast⟩
    rw [Contents.offset?_apply]
    exact hreading.rows

/-- The row of a record at hand is not beyond it, unless rows were found elsewhere. -/
theorem row_le (hk : Keeps s found partitions h m) {framing : Framing} {place : Position}
    (hs : h.stage = .recording framing place) (hwithin : found.Within s.topic partitions)
    {offset : Int} (hrow : m.offset? s.topic place.partition = some offset) :
    offset ≤ place.offset := by
  have hpace := hk.pace
  rw [hs] at hpace
  obtain ⟨hreading, hplaced, -⟩ := hpace
  have hpartition := hplaced.partition
  rw [← hreading.cursors] at hpartition
  obtain ⟨c, hc, hi⟩ := List.mem_map.mp hpartition
  have hle := hreading.rows hwithin c hc offset (by rw [hi]; exact hrow)
  rwa [upTo, if_pos hi] at hle

theorem request_recording (hk : Keeps s found partitions h m)
    (hroomy : h.world.store.root?.isSome → h.Roomy s.topic) {framing : Framing} {place : Position}
    (hs : h.stage = .recording framing place) :
    Keeps s found partitions (h.request s) (m.advance place) := by
  have hcreated : h.stage ≠ .creatingTopic := by rw [hs]; nofun
  have hpace := hk.pace
  rw [hs] at hpace
  obtain ⟨hreading, hplaced, hlast⟩ := hpace
  obtain ⟨hzero, hlt⟩ := hk.flight place (by rw [hs]; rfl)
  have hgoes := hk.advance hroomy hcreated hplaced.partition hzero (Int.le_of_lt hlt)
  have hrow : h.row? s.topic place.partition (found.offset? s.topic place.partition) =
      some place.offset := by
    rw [row?, hlast]
    rfl
  rw [History.request_recording hs hgoes.ok]
  refine ⟨hgoes.carries, .inr (hk.exist.resolve_left hcreated), hk.numbers,
    fun _ => hk.opened (by rw [hs]; nofun), hk.others_advance hplaced.reads hplaced.partition,
    fun i hi _ => hk.rows_advance hplaced.reads (by rw [hs]; rfl) hrow hi, hk.marks, nofun,
    hreading.captured, hreading.reads, hreading.cursors, fun hwithin c hc offset hoffset => ?_⟩
  rw [Contents.offset?_advance] at hoffset
  split at hoffset
  · next hsame =>
    obtain rfl : place.offset = offset := Option.some.inj hoffset
    exact hplaced.behind c hc hsame.2
  · next hother =>
    have hle := hreading.rows hwithin c hc offset hoffset
    rwa [upTo, if_neg fun hi => hother ⟨hplaced.reads.symm, hi⟩] at hle

theorem request_evaluating (hk : Keeps s found partitions h m) {framing : Framing}
    (hs : h.stage = .evaluating framing) : Keeps s found partitions (h.request s) m := by
  have hpace := hk.pace
  rw [hs] at hpace
  obtain ⟨rows, hrows, -⟩ := hk.carries.ledger
  rw [History.request_evaluating hs (StateStore.ready_eq hrows).1]
  exact (hk.relatch _ (StateStore.ready_backing _ _)).goOn hs nofun rfl nofun rfl hpace

/-- Every request keeps the ledger. -/
theorem request (hk : Keeps s found partitions h m) (hsteady : h.Steady)
    (hroomy : h.world.store.root?.isSome → h.Roomy s.topic)
    (hnumbers : (h.request s).log.Exists s.topic →
      (h.request s).log.partitionNumbers s.topic = partitions) :
    Keeps s found partitions (h.request s) (h.stage.contents m) := by
  have hpace := hk.pace
  cases hs : h.stage with
  | creatingTopic => exact hk.request_creatingTopic hsteady hnumbers hs
  | askingSubjects =>
    rw [hs] at hpace
    rw [History.request_askingSubjects hs]
    exact hk.goOn hs nofun rfl nofun rfl hpace
  | startingClock framing =>
    rw [hs] at hpace
    rw [History.request_startingClock hs]
    exact hk.goOn hs nofun rfl nofun rfl hpace
  | queryingPartitions framing deadline =>
    rw [hs] at hpace
    have hexist := hk.exist.resolve_left (by rw [hs]; nofun)
    rw [History.request_queryingPartitions hs, hk.numbers hexist]
    cases partitions with
    | nil => exact hk.goOn hs nofun rfl nofun rfl hpace
    | cons i rest => exact hk.goOn hs nofun rfl nofun rfl ⟨hpace.1, hpace.2, rfl⟩
  | checkingClock framing deadline =>
    rw [hs] at hpace
    rw [History.request_checkingClock hs]
    split
    · exact hk.goOn hs nofun rfl nofun rfl nofun
    · exact hk.goOn hs nofun rfl nofun rfl hpace
  | retrying framing deadline =>
    rw [hs] at hpace
    have hclock := hk.clock (max h.world.schedule.now (h.world.schedule.now + retryPause))
    rw [History.request_retrying hs, pause_eq hsteady.due]
    exact hclock.goOn hs nofun rfl nofun rfl hpace
  | readingLedger framing all => exact hk.request_readingLedger hs
  | queryingWatermarks framing all ledger noted i todo =>
    exact hk.request_queryingWatermarks hsteady hs
  | seeding framing all ledger noted seed todo => exact hk.request_seeding hroomy hs
  | settingWatermark framing all noted =>
    rw [hs] at hpace
    have hlatch := hk.relatch { h.world.store with
      latch := h.world.store.latch.setWatermark noted } rfl
    rw [History.request_settingWatermark hs]
    exact hlatch.goOn hs nofun rfl nofun rfl hpace
  | rereadingLedger framing all =>
    rw [hs] at hpace
    obtain ⟨happlied, rfl, hcaptured⟩ := hpace
    obtain ⟨rows, hrows, hlists⟩ := hk.carries.ledger
    rw [History.request_rereadingLedger hs hrows]
    exact hk.goOn hs nofun rfl nofun rfl ⟨happlied, hcaptured, rows, hlists, rfl⟩
  | assigning framing starts => exact hk.request_assigning hs
  | checkingStop framing =>
    rw [hs] at hpace
    rw [History.request_checkingStop hs]
    split
    · exact hk.goOn hs nofun rfl nofun rfl fun _ => hpace.captured
    · exact hk.goOn hs nofun rfl nofun rfl hpace
  | polling framing => exact hk.request_polling hsteady hs
  | applying framing place change => exact hk.request_applying hroomy hs
  | recording framing place => exact hk.request_recording hroomy hs
  | checkingLatch framing =>
    rw [hs] at hpace
    rw [History.request_checkingLatch hs]
    split
    · exact hk.goOn hs nofun rfl nofun rfl hpace
    · exact hk.goOn hs nofun rfl nofun rfl hpace
  | evaluating framing => exact hk.request_evaluating hs
  | resting framing =>
    rw [hs] at hpace
    rcases History.request_resting (s := s) hs with hrequest | hrequest
    · rw [hrequest]
      exact hk.goOn hs nofun rfl nofun rfl fun _ => hpace.captured
    · have hclock := hk.clock (max h.world.schedule.now
        (h.world.schedule.now + s.timing.backoff))
      rw [hrequest, pause_eq hsteady.due]
      exact hclock.goOn hs nofun rfl nofun rfl hpace
  | closing outcome =>
    rw [hs] at hpace
    rw [History.request_closing hs]
    exact ⟨hk.carries, .inr (hk.exist.resolve_left (by rw [hs]; nofun)), hk.numbers,
      fun hphase => absurd rfl hphase, hk.others, fun i hi _ => hk.rows i hi (by rw [hs]; nofun),
      hk.marks, nofun, hpace⟩
  | finished outcome =>
    rw [History.request_finished hs]
    exact hk

/-- A request sets no row of the topic back, unless rows were found elsewhere. -/
theorem below (hk : Keeps s found partitions h m) (hwithin : found.Within s.topic partitions) :
    m.Below s.topic (h.stage.contents m) := by
  cases hs : h.stage with
  | seeding framing all ledger noted seed todo =>
    have hpace := hk.pace
    rw [hs] at hpace
    obtain ⟨-, -, -, -, -, -, -, hnone⟩ := hpace
    apply Contents.Below.advance
    intro offset hrow
    rw [hnone] at hrow
    cases hrow
  | recording framing place => exact .advance fun offset hrow => hk.row_le hs hwithin hrow
  | applying framing place change => exact .of_offset? (m.offset?_apply change)
  | _ => exact .of_offset? rfl

end Keeps

end History

end Replay

end KeyedLog
