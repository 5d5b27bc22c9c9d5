import KeyedLog.Proofs.Replay.Resuming

/-!
# When a store is ready

The watermark of a run is reached where the ledger has come to the last offset written before. A
row that was only seeded names the lowest offset retained, so it passes for that last offset where
a partition retains a single record. Everywhere else a store that is ready has applied all that
was written before its run began.
-/
namespace KeyedLog

namespace Latch

variable {m : Contents} {rows : List Position} {topic : String}

/-- The rows a ledger is compared with. -/
def targets (topic : String) (captured : List (Int × Watermarks)) : List Position :=
  captured.map fun c => ⟨topic, c.1, c.2.lastWritten⟩

theorem reached_iff (h : m.Lists rows) (target : Position) :
    reached rows target = true ↔
      ∃ offset, m.offset? target.topic target.partition = some offset ∧ target.offset ≤ offset := by
  rw [reached, h.offsetOf?]
  cases m.offset? target.topic target.partition with
  | none => simp
  | some offset => simp

theorem caughtUp_iff (h : m.Lists rows) (captured : List (Int × Watermarks)) :
    caughtUp (targets topic captured) rows = true ↔ captured ≠ [] ∧
      ∀ i w, (i, w) ∈ captured →
        ∃ offset, m.offset? topic i = some offset ∧ w.lastWritten ≤ offset := by
  simp only [caughtUp, targets, Bool.and_eq_true, Bool.not_eq_true', List.isEmpty_eq_false_iff,
    List.all_eq_true, List.mem_map, ne_eq, List.map_eq_nil_iff]
  apply and_congr_right
  intro _
  constructor
  · intro hall i w hmem
    exact (reached_iff h _).mp (hall _ ⟨(i, w), hmem, rfl⟩)
  · rintro hall _ ⟨⟨i, w⟩, hmem, rfl⟩
    exact (reached_iff h _).mpr (hall i w hmem)

/-- The answer of a latch, before it latches or after. -/
def answers (l : Latch) (rows : List Position) : Bool := l.latched || caughtUp l.watermark rows

end Latch

namespace StateStore

variable {s : StateStore} {files : FileTree} {rows : List Position}

theorem ready_eq (h : s.ledger files = .ok rows) :
    (s.ready files).1 = .ok (s.latch.answers rows) ∧
      (s.ready files).2.latch = { s.latch with latched := s.latch.answers rows } := by
  obtain ⟨backing, watermark?, latched⟩ := s
  simp only [ready, h, Latch.answers, Latch.evaluate]
  cases latched with
  | true => exact ⟨rfl, rfl⟩
  | false =>
    cases Latch.caughtUp (Latch.watermark ⟨watermark?, false⟩) rows with
    | true => exact ⟨rfl, rfl⟩
    | false => exact ⟨rfl, rfl⟩

theorem advance_latch (s : StateStore) (files : FileTree) (p : Position) :
    (s.advance files p).2.1.latch = s.latch := by
  obtain ⟨backing, latch⟩ := s
  cases backing <;> rfl

theorem applyChange_latch (s : StateStore) (files : FileTree) (c : Change) :
    (s.applyChange files c.key c.value c.correlation).2.1.latch = s.latch := by
  obtain ⟨backing, latch⟩ := s
  obtain ⟨key, value, correlation⟩ := c
  cases value <;> cases backing <;> rfl

end StateStore

namespace Replay

/-- The place of the change that has been applied and is about to be recorded. -/
def Stage.unrecorded? : Stage → Option Position
  | recording _ place => some place
  | _ => none

theorem Stage.unrecorded?_noteNext (framing : Framing) (partitions : List Int)
    (ledger noted : List Position) (todo : List Int) :
    (noteNext framing partitions ledger noted todo).unrecorded? = none := by
  cases todo <;> rfl

/-- Whether an event belongs to the run that is there. -/
def History.Event.InRun : History.Event → Prop
  | .restart _ => False
  | _ => True

/-- A latch compares with the watermark of every partition, and every partition has a row. -/
structure Armed (topic : String) (log : Log) (latch : Latch) (captured : List (Int × Watermarks))
    (m : Contents) : Prop where
  watermark : latch.watermark? = some (Latch.targets topic captured)
  partitions : captured.map Prod.fst = log.partitionNumbers topic
  nonempty : captured ≠ []
  rows : ∀ i ∈ captured.map Prod.fst, (m.offset? topic i).isSome

/-- How far a run has got with its watermark at each stage. -/
def Aim (topic : String) (log : Log) (latch : Latch) (captured : List (Int × Watermarks))
    (m : Contents) : Stage → Prop
  | .queryingWatermarks _ partitions ledger noted i todo =>
    latch = {} ∧ ledger = [] ∧ noted = Latch.targets topic captured ∧
      captured.map Prod.fst ++ i :: todo = partitions
  | .seeding _ partitions ledger noted seed todo =>
    latch = {} ∧ ledger = [] ∧ noted = Latch.targets topic captured ∧
      captured.map Prod.fst ++ todo = partitions ∧
      ∃ w, (seed.partition, w) ∈ captured ∧ seed.offset = w.low
  | .settingWatermark _ partitions noted =>
    latch = {} ∧ noted = Latch.targets topic captured ∧ captured.map Prod.fst = partitions
  | .closing _ => latch = {} ∨ Armed topic log latch captured m
  | .finished _ => latch = {} ∨ Armed topic log latch captured m
  | .creatingTopic => latch = {} ∧ captured = []
  | .askingSubjects => latch = {} ∧ captured = []
  | .startingClock _ => latch = {} ∧ captured = []
  | .queryingPartitions _ _ => latch = {} ∧ captured = []
  | .checkingClock _ _ => latch = {} ∧ captured = []
  | .retrying _ _ => latch = {} ∧ captured = []
  | .readingLedger _ _ => latch = {} ∧ captured = []
  | _ => Armed topic log latch captured m

section Aim

variable {topic : String} {log : Log} {latch : Latch} {captured : List (Int × Watermarks)}
  {m : Contents}

theorem Armed.changeLog (ha : Armed topic log latch captured m) (hsound : log.Sound)
    (c : LogChange) : Armed topic (log.change c) latch captured m where
  watermark := ha.watermark
  partitions := by
    obtain ⟨mark, hmark⟩ := List.exists_mem_of_ne_nil _ ha.nonempty
    have hmem : mark.1 ∈ log.partitionNumbers topic :=
      ha.partitions ▸ List.mem_map_of_mem hmark
    rw [Log.partitionNumbers_change hsound (Log.exists_of_mem_partitionNumbers hmem)]
    exact ha.partitions
  nonempty := ha.nonempty
  rows := ha.rows

/-- Either no watermark has been set yet, or the one that has been captured. -/
theorem Aim.unset_or_armed {stage : Stage} (h : Aim topic log latch captured m stage) :
    latch = {} ∨ Armed topic log latch captured m := by
  cases stage with
  | creatingTopic => exact .inl h.1
  | askingSubjects => exact .inl h.1
  | startingClock framing => exact .inl h.1
  | queryingPartitions framing deadline => exact .inl h.1
  | checkingClock framing deadline => exact .inl h.1
  | retrying framing deadline => exact .inl h.1
  | readingLedger framing partitions => exact .inl h.1
  | queryingWatermarks framing partitions ledger noted i todo => exact .inl h.1
  | seeding framing partitions ledger noted seed todo => exact .inl h.1
  | settingWatermark framing partitions noted => exact .inl h.1
  | closing outcome => exact h
  | finished outcome => exact h
  | _ => exact .inr h

theorem Aim.changeLog {stage : Stage} (h : Aim topic log latch captured m stage)
    (hsound : log.Sound) (c : LogChange) : Aim topic (log.change c) latch captured m stage := by
  cases stage with
  | closing outcome => exact h.imp_right fun ha => ha.changeLog hsound c
  | finished outcome => exact h.imp_right fun ha => ha.changeLog hsound c
  | rereadingLedger framing partitions => exact Armed.changeLog h hsound c
  | assigning framing starts => exact Armed.changeLog h hsound c
  | checkingStop framing => exact Armed.changeLog h hsound c
  | polling framing => exact Armed.changeLog h hsound c
  | applying framing place change => exact Armed.changeLog h hsound c
  | recording framing place => exact Armed.changeLog h hsound c
  | checkingLatch framing => exact Armed.changeLog h hsound c
  | evaluating framing => exact Armed.changeLog h hsound c
  | resting framing => exact Armed.changeLog h hsound c
  | _ => exact h

/-- A latch that latches compares with what it did. -/
theorem Aim.relatch {stage : Stage} (h : Aim topic log latch captured m stage)
    (harmed : Armed topic log latch captured m) (latched : Bool) :
    Aim topic log { latch with latched := latched } captured m stage := by
  have hunset : latch ≠ {} := by
    rintro rfl
    cases harmed.watermark
  have hnew : Armed topic log { latch with latched := latched } captured m :=
    ⟨harmed.watermark, harmed.partitions, harmed.nonempty, harmed.rows⟩
  cases stage with
  | creatingTopic => exact absurd h.1 hunset
  | askingSubjects => exact absurd h.1 hunset
  | startingClock framing => exact absurd h.1 hunset
  | queryingPartitions framing deadline => exact absurd h.1 hunset
  | checkingClock framing deadline => exact absurd h.1 hunset
  | retrying framing deadline => exact absurd h.1 hunset
  | readingLedger framing partitions => exact absurd h.1 hunset
  | queryingWatermarks framing partitions ledger noted i todo => exact absurd h.1 hunset
  | seeding framing partitions ledger noted seed todo => exact absurd h.1 hunset
  | settingWatermark framing partitions noted => exact absurd h.1 hunset
  | closing outcome => exact .inr hnew
  | finished outcome => exact .inr hnew
  | _ => exact hnew

end Aim

namespace History

/-- A record with the last offset below a high watermark has been applied, or one beyond it; or
there was one offset at most. -/
def Passed (h : History) (i : Int) (w : Watermarks) : Prop :=
  w.high ≤ w.low + 1 ∨
    ∃ place c, (place, c) ∈ h.applied ∧ place.partition = i ∧ w.high ≤ place.offset + 1

/-- What the rows of a ledger come from in the first run on a store, and what its latch has to do
with the watermarks of that run. -/
structure Aims (x : Setup) (h : History) (m : Contents) : Prop where
  nodup : (h.captured.map Prod.fst).Nodup
  marks : ∀ i w, (i, w) ∈ h.captured →
    0 ≤ w.low ∧ w.low ≤ w.high ∧ w.low ≤ (h.log.slot x.topic i).low
  rows : ∀ i offset, m.offset? x.topic i = some offset → ∃ w, (i, w) ∈ h.captured ∧
    w.low ≤ offset ∧ (offset = w.low ∨ ∃ place c, (place, c) ∈ h.applied ∧
      place.partition = i ∧ place.offset = offset)
  done : ∀ place c, (place, c) ∈ h.applied →
    place.offset < (h.log.slot x.topic place.partition).high ∧
      (h.log.slot x.topic place.partition).Done x.decoder h.applied (place.offset + 1)
  unrecorded : ∀ place, h.stage.unrecorded? = some place → ∃ c, (place, c) ∈ h.applied
  recorded : ∀ place c, (place, c) ∈ h.applied → h.stage.unrecorded? = some place ∨
    ∃ offset, m.offset? x.topic place.partition = some offset ∧ place.offset ≤ offset
  latched : h.world.store.latch.latched = true → ∀ i w, (i, w) ∈ h.captured → h.Passed i w
  fresh : h.world.store.latch.watermark? = none → h.applied = []
  aim : Aim x.topic h.log h.world.store.latch h.captured m h.stage

variable {x : Setup} {h : History} {m : Contents}

namespace Aims

/-- A row that has reached the last offset written before was seeded there, or a record has been
applied. -/
theorem passed_of_row (ha : Aims x h m) {i : Int} {w : Watermarks} (hw : (i, w) ∈ h.captured)
    {offset : Int} (hrow : m.offset? x.topic i = some offset) (hle : w.lastWritten ≤ offset) :
    h.Passed i w := by
  obtain ⟨w', hw', hlow, hfrom⟩ := ha.rows i offset hrow
  have hsame : (i, w) = (i, w') := List.inj_on_of_nodup_map ha.nodup hw hw' rfl
  obtain rfl : w = w' := congrArg Prod.snd hsame
  obtain ⟨hzero, -, -⟩ := ha.marks i w hw
  rw [Watermarks.lastWritten] at hle
  rcases hfrom with rfl | ⟨place, c, hmem, hi, rfl⟩
  · left
    split at hle <;> omega
  · refine .inr ⟨place, c, hmem, hi, ?_⟩
    split at hle <;> omega

/-- Conversely, unless a record was applied just now and is not recorded yet. -/
theorem row_of_passed (ha : Aims x h m)
    (harmed : Armed x.topic h.log h.world.store.latch h.captured m)
    (hstage : h.stage.unrecorded? = none) {i : Int} {w : Watermarks}
    (hw : (i, w) ∈ h.captured) (hpassed : h.Passed i w) :
    ∃ offset, m.offset? x.topic i = some offset ∧ w.lastWritten ≤ offset := by
  obtain ⟨offset, hrow⟩ :=
    Option.isSome_iff_exists.mp (harmed.rows i (List.mem_map_of_mem hw))
  refine ⟨offset, hrow, ?_⟩
  obtain ⟨w', hw', hlow, -⟩ := ha.rows i offset hrow
  have hsame : (i, w) = (i, w') := List.inj_on_of_nodup_map ha.nodup hw hw' rfl
  obtain rfl : w = w' := congrArg Prod.snd hsame
  obtain ⟨hzero, -, -⟩ := ha.marks i w hw
  rw [Watermarks.lastWritten]
  rcases hpassed with hone | ⟨place, c, hmem, hi, hhigh⟩
  · split <;> omega
  · rcases ha.recorded place c hmem with hunrecorded | ⟨offset', hrow', hle⟩
    · rw [hstage] at hunrecorded
      cases hunrecorded
    · rw [hi, hrow, Option.some.injEq] at hrow'
      split <;> omega

/-- What a store that is ready has come past. -/
theorem passed_of_answers (ha : Aims x h m) {rows : List Position} (hrows : m.Lists rows)
    (hready : h.world.store.latch.answers rows = true) :
    Armed x.topic h.log h.world.store.latch h.captured m ∧
      ∀ i w, (i, w) ∈ h.captured → h.Passed i w := by
  have harmed : Armed x.topic h.log h.world.store.latch h.captured m := by
    rcases ha.aim.unset_or_armed with hunset | harmed
    · rw [hunset] at hready
      cases hready
    · exact harmed
  refine ⟨harmed, fun i w hw => ?_⟩
  rw [Latch.answers, Bool.or_eq_true] at hready
  cases hready with
  | inl hlatched => exact ha.latched hlatched i w hw
  | inr hcaught =>
    rw [Latch.watermark, harmed.watermark, Option.getD_some, Latch.caughtUp_iff hrows] at hcaught
    obtain ⟨offset, hrow, hle⟩ := hcaught.2 i w hw
    exact ha.passed_of_row hw hrow hle

/-- Once a watermark has been set, what a store answers tells what it has come past. -/
theorem answers_iff (ha : Aims x h m) {rows : List Position} (hrows : m.Lists rows)
    (hset : h.world.store.latch.watermark? ≠ none) (hstage : h.stage.unrecorded? = none) :
    h.world.store.latch.answers rows = true ↔ ∀ i w, (i, w) ∈ h.captured → h.Passed i w := by
  refine ⟨fun hready => (ha.passed_of_answers hrows hready).2, fun hpassed => ?_⟩
  have harmed : Armed x.topic h.log h.world.store.latch h.captured m := by
    refine ha.aim.unset_or_armed.resolve_left fun hunset => ?_
    rw [hunset] at hset
    exact hset rfl
  rw [Latch.answers, Bool.or_eq_true]
  right
  rw [Latch.watermark, harmed.watermark, Option.getD_some, Latch.caughtUp_iff hrows]
  exact ⟨harmed.nonempty, fun i w hw => ha.row_of_passed harmed hstage hw (hpassed i w hw)⟩

/-- What a store has come past has been applied, but for the record of a partition that retained
a single one. -/
theorem done_of_passed (ha : Aims x h m) (hsteady : h.Steady) {i : Int} {w : Watermarks}
    (hw : (i, w) ∈ h.captured) (hpassed : h.Passed i w) :
    w.high = w.low + 1 ∨ (h.log.slot x.topic i).Done x.decoder h.applied w.high := by
  obtain ⟨-, hle, hlow⟩ := ha.marks i w hw
  rcases hpassed with hone | ⟨place, c, hmem, rfl, hhigh⟩
  · by_cases hempty : w.high = w.low
    · exact .inr (Partition.Done.at_low (hsteady.sound.slots x.topic i) (by omega))
    · exact .inl (by omega)
  · obtain ⟨-, hdone⟩ := ha.done place c hmem
    exact .inr (hdone.mono hhigh)

/-! ## What others do -/

theorem changeLog (ha : Aims x h m) (hsound : h.log.Sound) (c : LogChange) :
    Aims x (h.changeLog c) m where
  nodup := ha.nodup
  marks := by
    intro i w hw
    obtain ⟨hzero, hle, hlow⟩ := ha.marks i w hw
    exact ⟨hzero, hle, Int.le_trans hlow (Log.changes_slot hsound c x.topic i).low_le⟩
  rows := ha.rows
  done := by
    intro place change hmem
    obtain ⟨hlt, hdone⟩ := ha.done place change hmem
    have hchanges := Log.changes_slot hsound c x.topic place.partition
    exact ⟨Int.lt_of_lt_of_le hlt hchanges.high_le, hdone.changes hchanges (by omega)⟩
  unrecorded := ha.unrecorded
  recorded := ha.recorded
  latched := ha.latched
  fresh := ha.fresh
  aim := ha.aim.changeLog hsound c

/-- Somebody asks, and the latch may latch. -/
theorem ask (ha : Aims x h m) (ht : Tracks x h m) :
    Aims x { h with world := { h.world with
      store := (h.world.store.ready h.world.files).2 } } m := by
  obtain ⟨rows, hrows, hlists⟩ := ht.holds.ledger
  obtain ⟨-, hlatch⟩ := StateStore.ready_eq hrows
  refine ⟨ha.nodup, ha.marks, ha.rows, ha.done, ha.unrecorded, ha.recorded, ?_, ?_, ?_⟩
  · simp only [hlatch]
    intro hready
    exact (ha.passed_of_answers hlists hready).2
  · simp only [hlatch]
    exact ha.fresh
  · simp only [hlatch]
    rcases ha.aim.unset_or_armed with hunset | harmed
    · have hsame : { h.world.store.latch with
          latched := h.world.store.latch.answers rows } = h.world.store.latch := by
        rw [hunset]
        rfl
      rw [hsame]
      exact ha.aim
    · exact ha.aim.relatch harmed _

/-! ## One request -/

/-- A step that touches neither the log, the store nor the watermarks. -/
theorem move (ha : Aims x h m) {h' : History} (hcaptured : h'.captured = h.captured)
    (happlied : h'.applied = h.applied) (hlog : h'.log = h.log)
    (hlatch : h'.world.store.latch = h.world.store.latch)
    (hbefore : h.stage.unrecorded? = none) (hafter : h'.stage.unrecorded? = none)
    (haim : Aim x.topic h.log h.world.store.latch h.captured m h'.stage) : Aims x h' m where
  nodup := hcaptured ▸ ha.nodup
  marks := by
    rw [hcaptured, hlog]
    exact ha.marks
  rows := by
    rw [hcaptured, happlied]
    exact ha.rows
  done := by
    rw [happlied, hlog]
    exact ha.done
  unrecorded := by
    intro place hunrecorded
    rw [hafter] at hunrecorded
    cases hunrecorded
  recorded := by
    rw [happlied]
    intro place c hmem
    refine .inr ((ha.recorded place c hmem).resolve_left ?_)
    rw [hbefore]
    nofun
  latched := by
    intro hlatched i w hw
    rw [hlatch] at hlatched
    rw [hcaptured] at hw
    rw [Passed, happlied]
    exact ha.latched hlatched i w hw
  fresh := by
    rw [hlatch, happlied]
    exact ha.fresh
  aim := by
    rw [hlog, hlatch, hcaptured]
    exact haim

theorem request_creatingTopic (ha : Aims x h m) (hsteady : h.Steady)
    (hs : h.stage = .creatingTopic) : Aims x (h.request x.settings) m := by
  have hlog := ha.changeLog hsteady.sound (.create x.topic none)
  have haim := hlog.aim
  rw [show (h.changeLog (.create x.topic none)).stage = h.stage from rfl, hs] at haim
  rw [History.request_creatingTopic hs]
  refine hlog.move rfl rfl rfl rfl ?_ ?_ ?_
  · rw [show (h.changeLog (.create x.topic none)).stage = h.stage from rfl, hs]
    rfl
  · split <;> rfl
  · split
    · exact haim
    · exact haim

theorem request_readingLedger (ha : Aims x h m) (ht : Tracks x h m) {framing : Framing}
    {partitions : List Int} (hs : h.stage = .readingLedger framing partitions) :
    Aims x (h.request x.settings) m := by
  have haim := ha.aim
  rw [hs] at haim
  obtain ⟨hlatch, hcaptured⟩ := haim
  obtain ⟨rows, hrows, hlists⟩ := ht.holds.ledger
  -- nothing was captured so far, so there are no rows yet
  have hnone : rows = [] := by
    apply List.eq_nil_iff_forall_not_mem.mpr
    intro row hrow
    have hoffset := (hlists.mem row).mp hrow
    obtain ⟨htopic, -, -⟩ := ht.rows _ _ _ hoffset
    rw [htopic] at hoffset
    obtain ⟨w, hw, -⟩ := ha.rows _ _ hoffset
    rw [hcaptured] at hw
    cases hw
  rw [History.request_readingLedger hs hrows, hnone]
  refine ha.move rfl rfl rfl rfl (by rw [hs]; rfl) (Stage.unrecorded?_noteNext _ _ _ _ _) ?_
  rw [hcaptured]
  cases partitions with
  | nil => exact ⟨hlatch, rfl, rfl⟩
  | cons i todo => exact ⟨hlatch, rfl, rfl, rfl⟩

theorem request_queryingWatermarks (ha : Aims x h m) (ht : Tracks x h m) (hsteady : h.Steady)
    {framing : Framing} {partitions : List Int} {ledger noted : List Position} {i : Int}
    {todo : List Int} (hs : h.stage = .queryingWatermarks framing partitions ledger noted i todo) :
    Aims x (h.request x.settings) m := by
  have haim := ha.aim
  have hstand := ht.stand
  rw [hs] at haim hstand
  obtain ⟨hlatch, rfl, hnoted, hpartitions⟩ := haim
  have hnoting : h.view.Noting x m partitions [] (i :: todo) := hstand
  have hi : i ∈ h.log.partitionNumbers x.settings.topic :=
    hnoting.all ▸ hnoting.rest i List.mem_cons_self
  have hslot := hsteady.sound.slots x.topic i
  rw [History.request_queryingWatermarks hs hi]
  have hpairs : ∀ j w, (j, w) ∈ h.captured ++ [(i, (h.log.slot x.topic i).watermarks)] →
      (j, w) ∈ h.captured ∨ j = i ∧ w = (h.log.slot x.topic i).watermarks := by
    intro j w hw
    rw [List.mem_append, List.mem_singleton, Prod.mk.injEq] at hw
    exact hw
  have hnone := ha.fresh (by rw [hlatch])
  refine ⟨?_, ?_, ?_, ha.done, nofun, ?_, ?_, ha.fresh, ?_⟩
  · have hnodup := h.log.nodup_partitionNumbers x.topic
    rw [show h.log.partitionNumbers x.topic = partitions from hnoting.all.symm,
      ← hpartitions] at hnodup
    simp only [List.map_append, List.map_cons, List.map_nil]
    have hsub : (h.captured.map Prod.fst ++ [i]).Sublist (h.captured.map Prod.fst ++ i :: todo) :=
      (List.Sublist.refl _).append (List.singleton_sublist.mpr List.mem_cons_self)
    exact hnodup.sublist hsub
  · intro j w hw
    rcases hpairs j w hw with hw | ⟨rfl, rfl⟩
    · exact ha.marks j w hw
    · exact ⟨hslot.low, (h.log.slot x.topic j).low_le_high, Int.le_refl _⟩
  · intro j offset hrow
    obtain ⟨w, hw, hfrom⟩ := ha.rows j offset hrow
    exact ⟨w, List.mem_append_left _ hw, hfrom⟩
  · intro place c hmem
    simp [hnone] at hmem
  · intro hlatched
    simp only [hlatch, Bool.false_eq_true] at hlatched
  · have htargets : noted ++ [⟨x.topic, i, (h.log.slot x.topic i).watermarks.lastWritten⟩] =
        Latch.targets x.topic (h.captured ++ [(i, (h.log.slot x.topic i).watermarks)]) := by
      rw [hnoted, Latch.targets, Latch.targets, List.map_append]
      rfl
    refine ⟨hlatch, rfl, htargets, ?_, _, List.mem_append_right _ List.mem_cons_self, rfl⟩
    rw [List.map_append, List.append_assoc]
    exact hpartitions

theorem request_seeding (ha : Aims x h m) (ht : Tracks x h m)
    (hsized : x.root.isSome → h.Sized x.topic) {framing : Framing} {partitions : List Int}
    {ledger noted : List Position} {seed : Position} {todo : List Int}
    (hs : h.stage = .seeding framing partitions ledger noted seed todo) :
    Aims x (h.request x.settings) (m.advance seed) := by
  have haim := ha.aim
  have hstand := ht.stand
  rw [hs] at haim hstand
  obtain ⟨hlatch, rfl, hnoted, hpartitions, w, hw, hlow⟩ := haim
  obtain ⟨hnoting, htopic, htracked⟩ := hstand
  have hpartition : seed.partition ∈ h.log.partitionNumbers x.topic :=
    hnoting.all ▸ hnoting.rest _ List.mem_cons_self
  obtain ⟨hok, -⟩ := ht.advance hsized htopic hpartition htracked
  have hlatch' : (h.world.store.advance h.world.files seed).2.1.latch = {} := by
    rw [StateStore.advance_latch, hlatch]
  have hnone : h.applied = [] := ha.fresh (by rw [hlatch])
  rw [History.request_seeding hs hok]
  refine ⟨ha.nodup, ha.marks, ?_, ha.done, ?_, ?_, ?_, fun _ => hnone, ?_⟩
  · intro i offset hrow
    rw [Contents.offset?_advance] at hrow
    split at hrow
    · next hsame =>
      rw [Option.some.injEq] at hrow
      rw [hsame.2, ← hrow, hlow]
      exact ⟨w, hw, Int.le_refl _, .inl rfl⟩
    · exact ha.rows i offset hrow
  · intro place hunrecorded
    rw [Stage.unrecorded?_noteNext] at hunrecorded
    cases hunrecorded
  · intro place c hmem
    simp [hnone] at hmem
  · intro hlatched
    simp only [hlatch', Bool.false_eq_true] at hlatched
  · cases todo with
    | nil =>
      rw [List.append_nil] at hpartitions
      exact ⟨hlatch', hnoted, hpartitions⟩
    | cons i rest => exact ⟨hlatch', rfl, hnoted, hpartitions⟩

theorem request_settingWatermark (ha : Aims x h m) (ht : Tracks x h m) (hsteady : h.Steady)
    {framing : Framing} {partitions : List Int} {noted : List Position}
    (hs : h.stage = .settingWatermark framing partitions noted) :
    Aims x (h.request x.settings) m := by
  have haim := ha.aim
  have hstand := ht.stand
  rw [hs] at haim hstand
  obtain ⟨hlatch, rfl, hpartitions⟩ := haim
  have hnoting : h.view.Noting x m partitions [] [] := hstand
  have hnone := ha.fresh (by rw [hlatch])
  rw [History.request_settingWatermark hs]
  refine ⟨ha.nodup, ha.marks, ha.rows, ha.done, nofun, ?_, ?_, nofun, ?_⟩
  · intro place c hmem
    simp [hnone] at hmem
  · intro hlatched
    simp only [hlatch, Latch.setWatermark, Bool.false_eq_true] at hlatched
  · refine ⟨rfl, hpartitions.trans hnoting.all, ?_, ?_⟩
    · intro hempty
      rw [hempty] at hpartitions
      exact hnoting.exist.partitionNumbers_ne_nil hsteady.sound
        (hnoting.all.symm.trans hpartitions.symm)
    · intro i hi
      exact (hnoting.rows i (hpartitions ▸ hi)).resolve_left List.not_mem_nil

/-- More that is applied takes nothing back. -/
theorem passed_append {i : Int} {w : Watermarks} (hpassed : h.Passed i w) {h' : History}
    {others : List (Position × Change)} (happlied : h'.applied = h.applied ++ others) :
    h'.Passed i w := by
  rcases hpassed with hone | ⟨place, c, hmem, hi, hhigh⟩
  · exact .inl hone
  · exact .inr ⟨place, c, happlied ▸ List.mem_append_left _ hmem, hi, hhigh⟩

theorem request_applying (ha : Aims x h m) (ht : Tracks x h m) (hsteady : h.Steady)
    (hhomed : x.Homed h.log) (hsized : x.root.isSome → h.Sized x.topic) {framing : Framing}
    {place : Position} {change : Change} (hs : h.stage = .applying framing place change) :
    Aims x (h.request x.settings) (m.apply change) := by
  have haim := ha.aim
  have hstand := ht.stand
  rw [hs] at haim hstand
  have harmed : Armed x.topic h.log h.world.store.latch h.captured m := haim
  obtain ⟨hreading, hhand⟩ := hstand
  obtain ⟨htracked, -⟩ := hreading.tracked_atHand hhand
  obtain ⟨hok, -⟩ := ht.apply hsteady hhomed hsized hs
  have hlatch := h.world.store.applyChange_latch h.world.files change
  rw [History.request_applying hs hok]
  refine ⟨ha.nodup, ha.marks, ?_, ?_, ?_, ?_, ?_, ?_, ?_⟩
  · intro i offset hrow
    rw [Contents.offset?_apply] at hrow
    obtain ⟨w, hw, hlow, hfrom⟩ := ha.rows i offset hrow
    refine ⟨w, hw, hlow, hfrom.imp_right ?_⟩
    rintro ⟨place', c, hmem, hplace⟩
    exact ⟨place', c, List.mem_append_left _ hmem, hplace⟩
  · intro place' c hmem
    rw [List.mem_append, List.mem_singleton, Prod.mk.injEq] at hmem
    rcases hmem with hmem | ⟨rfl, rfl⟩
    · obtain ⟨hlt, hdone⟩ := ha.done place' c hmem
      exact ⟨hlt, hdone.append _⟩
    · exact ⟨hhand.lt_high, (htracked.apply_self hhand hsteady.sound).done⟩
  · intro place' hunrecorded
    obtain rfl : place = place' := Option.some.inj hunrecorded
    exact ⟨change, List.mem_append_right _ List.mem_cons_self⟩
  · intro place' c hmem
    rw [List.mem_append, List.mem_singleton, Prod.mk.injEq] at hmem
    rcases hmem with hmem | ⟨rfl, rfl⟩
    · rw [Contents.offset?_apply]
      refine .inr ((ha.recorded place' c hmem).resolve_left ?_)
      rw [hs]
      nofun
    · exact .inl rfl
  · simp only [hlatch]
    intro hlatched i w hw
    exact passed_append (ha.latched hlatched i w hw) rfl
  · simp only [hlatch, harmed.watermark]
    nofun
  · simp only [hlatch]
    refine ⟨harmed.watermark, harmed.partitions, harmed.nonempty, ?_⟩
    rw [Contents.offset?_apply]
    exact harmed.rows

theorem request_recording (ha : Aims x h m) (ht : Tracks x h m)
    (hsized : x.root.isSome → h.Sized x.topic) {framing : Framing} {place : Position}
    (hs : h.stage = .recording framing place) :
    Aims x (h.request x.settings) (m.advance place) := by
  have haim := ha.aim
  have hstand := ht.stand
  rw [hs] at haim hstand
  have harmed : Armed x.topic h.log h.world.store.latch h.captured m := haim
  obtain ⟨hreading, htopic, hzero, hpartition, hbehind, hrow⟩ := hstand
  have htracked := hreading.tracked_behind hzero hpartition hbehind
  obtain ⟨hok, -⟩ := ht.advance hsized htopic hpartition htracked
  have hlatch := h.world.store.advance_latch h.world.files place
  obtain ⟨change, hmem⟩ := ha.unrecorded place (by rw [hs]; rfl)
  rw [History.request_recording hs hok]
  refine ⟨ha.nodup, ha.marks, ?_, ha.done, nofun, ?_, ?_, ?_, ?_⟩
  · intro i offset hnew
    rw [Contents.offset?_advance] at hnew
    split at hnew
    · next hsame =>
      obtain ⟨-, rfl⟩ := hsame
      obtain rfl : place.offset = offset := Option.some.inj hnew
      have hi : place.partition ∈ h.captured.map Prod.fst := harmed.partitions ▸ hpartition
      obtain ⟨old, hold⟩ := Option.isSome_iff_exists.mp (harmed.rows _ hi)
      obtain ⟨w, hw, hlow, -⟩ := ha.rows _ old hold
      have hle := hrow old hold
      exact ⟨w, hw, by omega, .inr ⟨place, change, hmem, rfl, rfl⟩⟩
    · exact ha.rows i offset hnew
  · intro place' c hmem'
    right
    rw [Contents.offset?_advance]
    have hbefore := ha.recorded place' c hmem'
    rw [hs] at hbefore
    split
    · next hsame =>
      refine ⟨place.offset, rfl, ?_⟩
      rcases hbefore with hself | ⟨old, hold, hle⟩
      · obtain rfl : place = place' := Option.some.inj hself
        exact Int.le_refl _
      · have := hrow old (by rw [← hsame.2]; exact hold)
        omega
    · next hother =>
      refine hbefore.resolve_left fun hself => ?_
      obtain rfl : place = place' := Option.some.inj hself
      exact hother ⟨htopic.symm, rfl⟩
  · simp only [hlatch]
    exact ha.latched
  · simp only [hlatch]
    exact ha.fresh
  · simp only [hlatch]
    refine ⟨harmed.watermark, harmed.partitions, harmed.nonempty, ?_⟩
    exact fun i hi => m.isSome_advance place (harmed.rows i hi)

theorem request_evaluating (ha : Aims x h m) (ht : Tracks x h m) {framing : Framing}
    (hs : h.stage = .evaluating framing) : Aims x (h.request x.settings) m := by
  obtain ⟨answer, hready⟩ := ht.holds.ready
  have hasked := ha.ask ht
  have haim := hasked.aim
  simp only [hs] at haim
  rw [History.request_evaluating hs hready]
  exact hasked.move rfl rfl rfl rfl (by simp only [hs]; rfl) rfl haim

/-- A step from and to stages with nothing at hand. -/
theorem moveOn (ha : Aims x h m) {stage stage' : Stage} (hs : h.stage = stage) {h' : History}
    (hs' : h'.stage = stage') (hcaptured : h'.captured = h.captured)
    (happlied : h'.applied = h.applied) (hlog : h'.log = h.log)
    (hlatch : h'.world.store.latch = h.world.store.latch)
    (hbefore : stage.unrecorded? = none) (hafter : stage'.unrecorded? = none)
    (haim : Aim x.topic h.log h.world.store.latch h.captured m stage →
      Aim x.topic h.log h.world.store.latch h.captured m stage') : Aims x h' m := by
  subst hs hs'
  exact ha.move hcaptured happlied hlog hlatch hbefore hafter (haim ha.aim)

/-- Every request keeps a run on its aim. -/
theorem request (ha : Aims x h m) (ht : Tracks x h m) (hsteady : h.Steady) (hhomed : x.Homed h.log)
    (hsized : x.root.isSome → h.Sized x.topic) :
    Aims x (h.request x.settings) (h.stage.contents m) := by
  cases hs : h.stage with
  | creatingTopic => exact ha.request_creatingTopic hsteady hs
  | askingSubjects =>
    rw [History.request_askingSubjects hs]
    exact ha.moveOn hs rfl rfl rfl rfl rfl rfl rfl id
  | startingClock framing =>
    rw [History.request_startingClock hs]
    exact ha.moveOn hs rfl rfl rfl rfl rfl rfl rfl id
  | queryingPartitions framing deadline =>
    rw [History.request_queryingPartitions hs]
    cases h.log.partitionNumbers x.settings.topic with
    | nil => exact ha.moveOn hs rfl rfl rfl rfl rfl rfl rfl id
    | cons i rest => exact ha.moveOn hs rfl rfl rfl rfl rfl rfl rfl id
  | checkingClock framing deadline =>
    rw [History.request_checkingClock hs]
    split
    · exact ha.moveOn hs rfl rfl rfl rfl rfl rfl rfl fun haim => .inl haim.1
    · exact ha.moveOn hs rfl rfl rfl rfl rfl rfl rfl id
  | retrying framing deadline =>
    rw [History.request_retrying hs, pause_eq hsteady.due]
    exact ha.moveOn hs rfl rfl rfl rfl rfl rfl rfl id
  | readingLedger framing partitions => exact ha.request_readingLedger ht hs
  | queryingWatermarks framing partitions ledger noted i todo =>
    exact ha.request_queryingWatermarks ht hsteady hs
  | seeding framing partitions ledger noted seed todo => exact ha.request_seeding ht hsized hs
  | settingWatermark framing partitions noted => exact ha.request_settingWatermark ht hsteady hs
  | rereadingLedger framing partitions =>
    obtain ⟨rows, hrows, -⟩ := ht.holds.ledger
    rw [History.request_rereadingLedger hs hrows]
    exact ha.moveOn hs rfl rfl rfl rfl rfl rfl rfl id
  | assigning framing starts =>
    rcases History.request_assigning (s := x.settings) hs with ⟨e, hrequest⟩ | hrequest
    · rw [hrequest]
      exact ha.moveOn hs rfl rfl rfl rfl rfl rfl rfl .inr
    · rw [hrequest]
      exact ha.moveOn hs rfl rfl rfl rfl rfl rfl rfl id
  | checkingStop framing =>
    rw [History.request_checkingStop hs]
    split
    · exact ha.moveOn hs rfl rfl rfl rfl rfl rfl rfl .inr
    · exact ha.moveOn hs rfl rfl rfl rfl rfl rfl rfl id
  | polling framing =>
    rcases History.request_polling (s := x.settings) hs hsteady.due with
      ⟨outcome, hrequest⟩ | ⟨now, -, hrequest⟩ | ⟨r, c, -, ⟨change, -, hrequest⟩ | ⟨e, -, hrequest⟩⟩
    · rw [hrequest]
      exact ha.moveOn hs rfl rfl rfl rfl rfl rfl rfl .inr
    · rw [hrequest]
      exact ha.moveOn hs rfl rfl rfl rfl rfl rfl rfl id
    · rw [hrequest]
      exact ha.moveOn hs rfl rfl rfl rfl rfl rfl rfl id
    · rw [hrequest]
      exact ha.moveOn hs rfl rfl rfl rfl rfl rfl rfl .inr
  | applying framing place change => exact ha.request_applying ht hsteady hhomed hsized hs
  | recording framing place => exact ha.request_recording ht hsized hs
  | checkingLatch framing =>
    rw [History.request_checkingLatch hs]
    split
    · exact ha.moveOn hs rfl rfl rfl rfl rfl rfl rfl id
    · exact ha.moveOn hs rfl rfl rfl rfl rfl rfl rfl id
  | evaluating framing => exact ha.request_evaluating ht hs
  | resting framing =>
    rcases History.request_resting (s := x.settings) hs with hrequest | hrequest
    · rw [hrequest]
      exact ha.moveOn hs rfl rfl rfl rfl rfl rfl rfl .inr
    · rw [hrequest, pause_eq hsteady.due]
      exact ha.moveOn hs rfl rfl rfl rfl rfl rfl rfl id
  | closing outcome =>
    rw [History.request_closing hs]
    exact ha.moveOn hs rfl rfl rfl rfl rfl rfl rfl id
  | finished outcome =>
    rw [History.request_finished hs]
    exact ha

/-! ## A whole run -/

theorem after (ha : Aims x h m) (ht : Tracks x h m) (hsteady : h.Steady) (hhomed : x.Homed h.log)
    (hsized : x.root.isSome → h.Sized x.topic) {e : Event} (hrun : e.InRun) :
    Aims x (h.after x.settings e) (h.contentsAfter e m) := by
  cases e with
  | request => exact ha.request ht hsteady hhomed hsized
  | change c => exact ha.changeLog hsteady.sound c
  | stop kind =>
    exact ⟨ha.nodup, ha.marks, ha.rows, ha.done, ha.unrecorded, ha.recorded, ha.latched, ha.fresh,
      ha.aim⟩
  | ask => exact ha.ask ht
  | restart latch => exact hrun.elim

/-- A run on a store that is empty has nothing but its aim. -/
theorem start (log : Log) {store : StateStore} (hlatch : store.latch = {}) (files : FileTree) :
    Aims x (start log store files x.subjects) {} where
  nodup := List.nodup_nil
  marks := nofun
  rows := by
    intro i offset hrow
    rw [Contents.offset?_empty] at hrow
    cases hrow
  done := nofun
  unrecorded := nofun
  recorded := nofun
  latched := nofun
  fresh := fun _ => rfl
  aim := ⟨hlatch, rfl⟩

/-- Wherever a run has got to, its store is in step with the log and it has kept to its aim. -/
theorem run (ha : Aims x h m) (ht : Tracks x h m) (hsteady : h.Steady) (events : List Event)
    (hrun : ∀ e ∈ events, e.InRun) (hhome : ∀ key, x.home key = none)
    (hsized : x.root.isSome → (h.run x.settings events).Sized x.topic) :
    ∃ m', Tracks x (h.run x.settings events) m' ∧ Aims x (h.run x.settings events) m' := by
  have hhomed : x.Homed (h.run x.settings events).log := by
    intro i r hr c hc j hj
    rw [hhome] at hj
    cases hj
  exact ht.run_and ha hsteady events (.inr hhome) hhomed hsized
    fun h' m' e he ht' hsteady' hhomed' hsized' ha' =>
      ha'.after ht' hsteady' hhomed' hsized' (hrun e he)

end Aims

/-- Take one run on a store that was empty at first, at any moment, whatever others do to the log.
If the store is ready, each partition has had its watermark noted, and all that was written below it
and is still retained has been applied, but for a partition that retained a single record then.
Once the watermark has been set and nothing waits to be recorded, the store is ready exactly if
each partition is past its watermark. -/
theorem ready_passed (s : Settings) (n : Int) (changes : List LogChange) {store : StateStore}
    {files : FileTree} (hfresh : store.Fresh files) (hlatch : store.latch = {})
    (subjects : Option (Except BrokerError (List String))) (events : List Event)
    (hrun : ∀ e ∈ events, e.InRun)
    (hsized : store.root?.isSome →
      ((start ((Log.empty n).changeAll changes) store files subjects).run s events).Sized
        s.topic) :
    let h := (start ((Log.empty n).changeAll changes) store files subjects).run s events
    let d := s.decoder subjects
    (h.ready = .ok true → h.captured.map Prod.fst = h.log.partitionNumbers s.topic ∧
      ∀ i w, (i, w) ∈ h.captured → w.high = w.low + 1 ∨
        ∀ r ∈ h.log.records s.topic i, r.offset < w.high →
          ∃ c, d.decode r = .ok c ∧ (r.place, c) ∈ h.applied) ∧
    (h.world.store.latch.watermark? ≠ none → h.stage.unrecorded? = none →
      (h.ready = .ok true ↔ ∀ i w, (i, w) ∈ h.captured → h.Passed i w)) := by
  intro h d
  have hlog : ((Log.empty n).changeAll changes).Sound := (Log.sound_empty n).changeAll changes
  have hstart := Steady.start hlog store files subjects
  have hsteady : h.Steady := hstart.run events
  obtain ⟨m, ht, ha⟩ := Aims.run (x := ⟨s, subjects, store.root?, fun _ => none⟩)
    (Aims.start _ hlatch files) (Tracks.start hlog hfresh rfl) hstart events hrun (fun _ => rfl)
    hsized
  obtain ⟨rows, hrows, hlists⟩ := ht.holds.ledger
  have hready : h.ready = .ok (h.world.store.latch.answers rows) :=
    (StateStore.ready_eq hrows).1
  rw [hready, Except.ok.injEq]
  refine ⟨fun hanswer => ?_, ha.answers_iff hlists⟩
  obtain ⟨harmed, hpassed⟩ := ha.passed_of_answers hlists hanswer
  refine ⟨harmed.partitions, fun i w hw => ?_⟩
  refine (ha.done_of_passed hsteady hw (hpassed i w hw)).imp_right fun hdone r hr hlt => ?_
  exact hdone r (Log.records_eq ▸ hr) hlt

/-- A run that becomes ready behind three records, while a fourth comes. -/
def behindEvents : List Event :=
  List.replicate 10 .request ++ [.change (.append "kv" ⟨[2], some [12], []⟩), .ask] ++
    List.replicate 17 .request

def behind : History :=
  (start ((Log.empty 2).changeAll [.append "kv" ⟨[1], some [10], []⟩,
    .append "kv" ⟨[2], some [11], []⟩, .append "kv" ⟨[2], none, []⟩]) .openDict [] none).run
    ⟨"kv", .disabled, false, {}⟩ behindEvents

theorem ready_passed_behind :
    behind.ready = .ok true ∧ (behind.log.records "kv" 1).length = 4 ∧
      ∀ r ∈ behind.log.records "kv" 1, r.offset < 3 →
        ∃ c, Decoder.decode ⟨.disabled, {}⟩ r = .ok c ∧ (r.place, c) ∈ behind.applied := by
  have hpassed := ready_passed ⟨"kv", .disabled, false, {}⟩ 2 [.append "kv" ⟨[1], some [10], []⟩,
    .append "kv" ⟨[2], some [11], []⟩, .append "kv" ⟨[2], none, []⟩]
    (show StateStore.openDict.Fresh [] from rfl) rfl none behindEvents
    (by simp [behindEvents, or_imp, forall_and, Event.InRun]) nofun
  rw [← behind] at hpassed
  have hready : behind.ready = .ok true := by cbv
  have hcaptured : behind.captured = [(0, ⟨0, 0⟩), (1, ⟨0, 3⟩)] := by cbv
  refine ⟨hready, by cbv, ?_⟩
  have hw : ((1 : Int), (⟨0, 3⟩ : Watermarks)) ∈ behind.captured := by
    rw [hcaptured]
    exact List.mem_cons_of_mem _ List.mem_cons_self
  refine ((hpassed.1 hready).2 1 ⟨0, 3⟩ hw).resolve_left ?_
  decide

/-- A run on a partition that retains a single record has set its watermark. -/
def early : History :=
  (start ((Log.empty 1).changeAll [.append "kv" ⟨[1], some [10], []⟩]) .openDict [] none).run
    ⟨"kv", .disabled, false, {}⟩ (List.replicate 7 .request)

/-- It is ready, but the record has not been applied, and nothing shows under its key. -/
theorem early_unapplied :
    early.ready = .ok true ∧ early.world.store.get? early.world.files [1] = .ok none ∧
      ¬ ∀ i w, (i, w) ∈ early.captured → ∀ r ∈ early.log.records "kv" i, r.offset < w.high →
        ∃ c, Decoder.decode ⟨.disabled, {}⟩ r = .ok c ∧ (r.place, c) ∈ early.applied := by
  have hcaptured : early.captured = [(0, ⟨0, 1⟩)] := by cbv
  have hrecords : early.log.records "kv" 0 = [⟨"kv", 0, 0, [1], some [10], []⟩] := by cbv
  have happlied : early.applied = [] := by cbv
  refine ⟨by cbv, by cbv, fun hall => ?_⟩
  obtain ⟨c, -, hmem⟩ := hall 0 ⟨0, 1⟩ (by rw [hcaptured]; exact List.mem_cons_self)
    ⟨"kv", 0, 0, [1], some [10], []⟩ (by rw [hrecords]; exact List.mem_cons_self) (by decide)
  rw [happlied] at hmem
  cases hmem

end History

end Replay

end KeyedLog
