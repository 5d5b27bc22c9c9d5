import KeyedLog.Proofs.Replay.Readiness

/-!
# When a store stays unready

A run whose consumer has nothing left to deliver waits for more records. Its store is ready by
then, unless a partition was emptied before the last record below its watermark was delivered: no
record moves the row of such a partition any more.
-/
namespace KeyedLog.Replay

/-- The place of the record that has been delivered and is not in the ledger yet. -/
def Stage.inFlight? : Stage → Option Position
  | applying _ place _ => some place
  | recording _ place => some place
  | _ => none

theorem Stage.phase_noteNext (framing : Framing) (partitions : List Int)
    (ledger noted : List Position) (todo : List Int) :
    (noteNext framing partitions ledger noted todo).phase = .capturingWatermark := by
  cases todo <;> rfl

/-- How far a run has got with its watermark at each stage, whatever runs went before it. -/
def Course (topic : String) (log : Log) (latch : Latch) (captured : List (Int × Watermarks))
    (m : Contents) : Stage → Prop
  | .queryingWatermarks _ partitions _ noted i todo =>
    noted = Latch.targets topic captured ∧ captured.map Prod.fst ++ i :: todo = partitions
  | .seeding _ partitions _ noted _ todo =>
    noted = Latch.targets topic captured ∧ captured.map Prod.fst ++ todo = partitions
  | .settingWatermark _ partitions noted =>
    noted = Latch.targets topic captured ∧ captured.map Prod.fst = partitions
  | .closing _ => True
  | .finished _ => True
  | .creatingTopic => captured = []
  | .askingSubjects => captured = []
  | .startingClock _ => captured = []
  | .queryingPartitions _ _ => captured = []
  | .checkingClock _ _ => captured = []
  | .retrying _ _ => captured = []
  | .readingLedger _ _ => captured = []
  | _ => Armed topic log latch captured m

section Course

variable {topic : String} {log : Log} {latch : Latch} {captured : List (Int × Watermarks)}
  {m : Contents}

theorem Course.armed {stage : Stage} (h : Course topic log latch captured m stage)
    (hphase : stage.phase = .consuming) : Armed topic log latch captured m := by
  cases stage with
  | checkingStop framing => exact h
  | polling framing => exact h
  | applying framing place change => exact h
  | recording framing place => exact h
  | checkingLatch framing => exact h
  | evaluating framing => exact h
  | resting framing => exact h
  | _ => cases hphase

/-- What an armed latch is armed with may be found elsewhere. -/
theorem Course.mono {stage : Stage} {log' : Log} {latch' : Latch} {m' : Contents}
    (h : Course topic log latch captured m stage)
    (harmed : Armed topic log latch captured m → Armed topic log' latch' captured m') :
    Course topic log' latch' captured m' stage := by
  cases stage with
  | rereadingLedger framing partitions => exact harmed h
  | assigning framing starts => exact harmed h
  | checkingStop framing => exact harmed h
  | polling framing => exact harmed h
  | applying framing place change => exact harmed h
  | recording framing place => exact harmed h
  | checkingLatch framing => exact harmed h
  | evaluating framing => exact harmed h
  | resting framing => exact harmed h
  | _ => exact h

theorem Course.noteNext {framing : Framing} {partitions : List Int} {ledger noted : List Position}
    {todo : List Int} (hnoted : noted = Latch.targets topic captured)
    (hpartitions : captured.map Prod.fst ++ todo = partitions) :
    Course topic log latch captured m (.noteNext framing partitions ledger noted todo) := by
  cases todo with
  | nil => exact ⟨hnoted, by rw [← hpartitions, List.append_nil]⟩
  | cons i todo => exact ⟨hnoted, hpartitions⟩

theorem Armed.congr (h : Armed topic log latch captured m) {latch' : Latch} {m' : Contents}
    (hlatch : latch'.watermark? = latch.watermark?)
    (hrows : ∀ i, (m.offset? topic i).isSome → (m'.offset? topic i).isSome) :
    Armed topic log latch' captured m' :=
  ⟨hlatch.trans h.watermark, h.partitions, h.nonempty, fun i hi => hrows i (h.rows i hi)⟩

end Course

namespace History

/-- A cursor is one ahead of the ledger at most, but for records that were dropped and for the one
that is in flight. -/
def Abreast (x : Setup) (h : History) (m : Contents) (c : Cursor) : Prop :=
  (∃ place, h.stage.inFlight? = some place ∧ place.partition = c.partition ∧
    c.next = place.offset + 1) ∨
  ∀ offset, m.offset? x.topic c.partition = some offset →
    c.next ≤ max (offset + 1) (h.log.slot x.topic c.partition).low

/-- What the watermarks and the cursors of a run have to do with the ledger, whatever runs went
before it. -/
structure Watches (x : Setup) (h : History) (m : Contents) : Prop where
  marks : ∀ i w, (i, w) ∈ h.captured → w.high ≤ (h.log.slot x.topic i).high
  abreast : h.stage.phase = .consuming → ∀ c ∈ h.world.consumer.cursors, Abreast x h m c
  course : Course x.topic h.log h.world.store.latch h.captured m h.stage

variable {x : Setup} {h : History} {m : Contents}

namespace Watches

theorem armed (hw : Watches x h m) (hphase : h.stage.phase = .consuming) :
    Armed x.topic h.log h.world.store.latch h.captured m :=
  hw.course.armed hphase

/-! ## What others do -/

theorem changeLog (hw : Watches x h m) (hsound : h.log.Sound) (c : LogChange) :
    Watches x (h.changeLog c) m where
  marks := by
    intro i w hmem
    exact Int.le_trans (hw.marks i w hmem) (Log.changes_slot hsound c x.topic i).high_le
  abreast := by
    intro hphase cursor hcursor
    refine (hw.abreast hphase cursor hcursor).imp_right fun hnext offset hrow => ?_
    have hbound := hnext offset hrow
    have hlow := (Log.changes_slot hsound c x.topic cursor.partition).low_le
    exact Int.le_trans hbound (max_le_max (Int.le_refl _) hlow)
  course := hw.course.mono fun ha => ha.changeLog hsound c

/-- Somebody asks, and the latch may latch. -/
theorem ask (hw : Watches x h m) (ht : Tracks x h m) :
    Watches x { h with world := { h.world with
      store := (h.world.store.ready h.world.files).2 } } m := by
  obtain ⟨rows, hrows, -⟩ := ht.holds.ledger
  obtain ⟨-, hlatch⟩ := StateStore.ready_eq hrows
  refine ⟨hw.marks, hw.abreast, hw.course.mono fun ha => ?_⟩
  simp only [hlatch]
  exact ha.congr rfl fun _ hi => hi

/-! ## One request -/

/-- A step to a stage at which no partition is read. -/
theorem leave (hw : Watches x h m) {stage : Stage} (hphase : stage.phase ≠ .consuming)
    (hcourse : Course x.topic h.log h.world.store.latch h.captured m stage) :
    Watches x { h with stage := stage } m :=
  ⟨hw.marks, fun hconsuming => absurd hconsuming hphase, hcourse⟩

/-- A step from one stage of reading to another, with nothing in flight. -/
theorem goOn (hw : Watches x h m) {before : Stage} (hs : h.stage = before)
    (hphase : before.phase = .consuming) (hnone : before.inFlight? = none) {stage : Stage}
    (hcourse : Course x.topic h.log h.world.store.latch h.captured m stage) :
    Watches x { h with stage := stage } m where
  marks := hw.marks
  abreast := by
    subst hs
    intro _ c hc
    refine .inr ((hw.abreast hphase c hc).resolve_left ?_)
    rintro ⟨place, hplace, -⟩
    rw [hnone] at hplace
    cases hplace
  course := hcourse

theorem clock (hw : Watches x h m) (now : Nat) :
    Watches x { h with world := { h.world with
      schedule := { h.world.schedule with now := now } } } m :=
  ⟨hw.marks, hw.abreast, hw.course⟩

theorem request_creatingTopic (hw : Watches x h m) (hsteady : h.Steady)
    (hs : h.stage = .creatingTopic) : Watches x (h.request x.settings) m := by
  have hlog := hw.changeLog hsteady.sound (.create x.topic none)
  have hcourse := hw.course
  rw [hs] at hcourse
  rw [History.request_creatingTopic hs]
  split
  · exact hlog.leave nofun hcourse
  · exact hlog.leave nofun hcourse

theorem request_queryingWatermarks (hw : Watches x h m) (ht : Tracks x h m) {framing : Framing}
    {partitions : List Int} {ledger noted : List Position} {i : Int} {todo : List Int}
    (hs : h.stage = .queryingWatermarks framing partitions ledger noted i todo) :
    Watches x (h.request x.settings) m := by
  have hcourse := hw.course
  have hstand := ht.stand
  rw [hs] at hcourse hstand
  obtain ⟨hnoted, hpartitions⟩ := hcourse
  have hnoting : h.view.Noting x m partitions ledger (i :: todo) := hstand
  have hi : i ∈ h.log.partitionNumbers x.settings.topic :=
    hnoting.all ▸ hnoting.rest i List.mem_cons_self
  rw [History.request_queryingWatermarks hs hi, Stage.note]
  have hmarks : ∀ j w, (j, w) ∈ h.captured ++ [(i, (h.log.slot x.topic i).watermarks)] →
      w.high ≤ (h.log.slot x.topic j).high := by
    intro j w hmem
    rw [List.mem_append, List.mem_singleton, Prod.mk.injEq] at hmem
    rcases hmem with hmem | ⟨rfl, rfl⟩
    · exact hw.marks j w hmem
    · exact Int.le_refl _
  have htargets : noted ++ [⟨x.topic, i, (h.log.slot x.topic i).watermarks.lastWritten⟩] =
      Latch.targets x.topic (h.captured ++ [(i, (h.log.slot x.topic i).watermarks)]) := by
    rw [hnoted, Latch.targets, Latch.targets, List.map_append]
    rfl
  have hrest : (h.captured ++ [(i, (h.log.slot x.topic i).watermarks)]).map Prod.fst ++ todo =
      partitions := by
    rw [List.map_append, List.append_assoc]
    exact hpartitions
  split
  · refine ⟨hmarks, fun hconsuming => ?_, Course.noteNext htargets hrest⟩
    rw [Stage.phase_noteNext] at hconsuming
    cases hconsuming
  · refine ⟨hmarks, fun hconsuming => ?_, htargets, hrest⟩
    cases hconsuming

theorem request_seeding (hw : Watches x h m) (ht : Tracks x h m)
    (hsized : x.root.isSome → h.Sized x.topic) {framing : Framing} {partitions : List Int}
    {ledger noted : List Position} {seed : Position} {todo : List Int}
    (hs : h.stage = .seeding framing partitions ledger noted seed todo) :
    Watches x (h.request x.settings) (m.advance seed) := by
  have hcourse := hw.course
  have hstand := ht.stand
  rw [hs] at hcourse hstand
  obtain ⟨hnoting, htopic, htracked⟩ := hstand
  have hpartition : seed.partition ∈ h.log.partitionNumbers x.topic :=
    hnoting.all ▸ hnoting.rest _ List.mem_cons_self
  obtain ⟨hok, -⟩ := ht.advance hsized htopic hpartition htracked
  rw [History.request_seeding hs hok]
  refine ⟨hw.marks, fun hconsuming => ?_, Course.noteNext hcourse.1 hcourse.2⟩
  rw [Stage.phase_noteNext] at hconsuming
  cases hconsuming

theorem request_settingWatermark (hw : Watches x h m) (ht : Tracks x h m) (hsteady : h.Steady)
    {framing : Framing} {partitions : List Int} {noted : List Position}
    (hs : h.stage = .settingWatermark framing partitions noted) :
    Watches x (h.request x.settings) m := by
  have hcourse := hw.course
  have hstand := ht.stand
  rw [hs] at hcourse hstand
  obtain ⟨rfl, hpartitions⟩ := hcourse
  have hnoting : h.view.Noting x m partitions [] [] := hstand
  rw [History.request_settingWatermark hs]
  refine ⟨hw.marks, nofun, rfl, hpartitions.trans hnoting.all, ?_, ?_⟩
  · intro hempty
    rw [hempty] at hpartitions
    exact hnoting.exist.partitionNumbers_ne_nil hsteady.sound
      (hnoting.all.symm.trans hpartitions.symm)
  · intro i hi
    exact (hnoting.rows i (hpartitions ▸ hi)).resolve_left List.not_mem_nil

/-- A consumer that takes over where the ledger says is not ahead of it. -/
theorem request_assigning (hw : Watches x h m) (ht : Tracks x h m) {framing : Framing}
    {starts : List PartitionStart} (hs : h.stage = .assigning framing starts) :
    Watches x (h.request x.settings) m := by
  have hcourse := hw.course
  have hstand := ht.stand
  rw [hs] at hcourse hstand
  obtain ⟨-, hseeded, hstarts⟩ := hstand
  rcases History.request_assigning (s := x.settings) hs with ⟨e, hrequest⟩ | hrequest
  · rw [hrequest]
    exact hw.leave nofun trivial
  · rw [hrequest]
    refine ⟨hw.marks, fun _ c hc => .inr fun offset hrow => ?_, hcourse⟩
    rw [hstarts] at hc
    simp only [List.map_map, List.mem_map] at hc
    obtain ⟨i, hi, rfl⟩ := hc
    change m.offset? x.topic i = some offset at hrow
    simp only [Function.comp_apply, Consumer.starting, hrow, Option.getD_some]
    exact max_le_max (by omega) (Int.le_refl _)

theorem request_polling (hw : Watches x h m) (ht : Tracks x h m) (hsteady : h.Steady)
    {framing : Framing} (hs : h.stage = .polling framing) :
    Watches x (h.request x.settings) m := by
  have hcourse := hw.course
  have hstand := ht.stand
  rw [hs] at hcourse hstand
  have hreading : h.view.Reading x m Cursor.next := hstand
  have hphase : h.stage.phase = .consuming := by rw [hs]; rfl
  have hnone : h.stage.inFlight? = none := by rw [hs]; rfl
  rcases History.request_polling (s := x.settings) hs hsteady.due with
    ⟨outcome, hrequest⟩ | ⟨now, -, hrequest⟩ | ⟨r, c, hnext, ⟨change, -, hrequest⟩ |
      ⟨e, -, hrequest⟩⟩
  · rw [hrequest]
    exact hw.leave nofun trivial
  · rw [hrequest]
    exact (hw.clock now).goOn hs rfl rfl hcourse
  · obtain ⟨k, cursor, hcursor, hget, rfl⟩ := Consumer.next?_eq_some hreading.topic hnext
    rw [hrequest]
    refine ⟨hw.marks, fun _ c hc => ?_, hcourse⟩
    rcases Consumer.mem_set_cursor hc with rfl | ⟨j, -, hj⟩
    · -- the record that was delivered is in flight
      have hslot := hsteady.sound.slots x.topic cursor.partition
      obtain ⟨hrecord, -⟩ := hslot.get?_eq_some_iff.mp hget
      exact .inl ⟨r.place, rfl, congrArg Position.partition (hslot.place hrecord).1, rfl⟩
    · refine .inr ((hw.abreast hphase c (List.mem_of_getElem? hj)).resolve_left ?_)
      rintro ⟨place, hplace, -⟩
      rw [hnone] at hplace
      cases hplace
  · rw [hrequest]
    exact ⟨hw.marks, nofun, trivial⟩

theorem request_applying (hw : Watches x h m) (ht : Tracks x h m) (hsteady : h.Steady)
    (hhomed : x.Homed h.log) (hsized : x.root.isSome → h.Sized x.topic) {framing : Framing}
    {place : Position} {change : Change} (hs : h.stage = .applying framing place change) :
    Watches x (h.request x.settings) (m.apply change) := by
  have hcourse := hw.course
  have habreast := hw.abreast (by rw [hs]; rfl)
  rw [hs] at hcourse
  obtain ⟨hok, -⟩ := ht.apply hsteady hhomed hsized hs
  have hlatch := h.world.store.applyChange_latch h.world.files change
  rw [History.request_applying hs hok]
  refine ⟨hw.marks, fun _ c hc => ?_, ?_⟩
  · have hbefore := habreast c hc
    rw [Abreast, hs] at hbefore
    rw [Abreast, Contents.offset?_apply]
    exact hbefore
  · simp only [hlatch]
    exact Armed.congr hcourse rfl fun i hi => by rwa [Contents.offset?_apply]

/-- Once the record in flight is in the ledger, its cursor is one ahead of it. -/
theorem request_recording (hw : Watches x h m) (ht : Tracks x h m)
    (hsized : x.root.isSome → h.Sized x.topic) {framing : Framing} {place : Position}
    (hs : h.stage = .recording framing place) :
    Watches x (h.request x.settings) (m.advance place) := by
  have hcourse := hw.course
  have habreast := hw.abreast (by rw [hs]; rfl)
  have hstand := ht.stand
  rw [hs] at hcourse hstand
  have harmed : Armed x.topic h.log h.world.store.latch h.captured m := hcourse
  obtain ⟨hreading, htopic, hzero, hpartition, hbehind, hrow⟩ := hstand
  have htracked := hreading.tracked_behind hzero hpartition hbehind
  obtain ⟨hok, -⟩ := ht.advance hsized htopic hpartition htracked
  have hlatch := h.world.store.advance_latch h.world.files place
  rw [History.request_recording hs hok]
  refine ⟨hw.marks, fun _ c hc => .inr fun offset hnew => ?_, ?_⟩
  · have hbefore := habreast c hc
    rw [Abreast, hs] at hbefore
    rw [Contents.offset?_advance] at hnew
    split at hnew
    · next hsame =>
      obtain rfl : place.offset = offset := Option.some.inj hnew
      rcases hbefore with ⟨place', hplace', -, hnext⟩ | hnext
      · obtain rfl : place = place' := Option.some.inj hplace'
        omega
      · have hi : c.partition ∈ h.captured.map Prod.fst := by
          rw [harmed.partitions, hsame.2]
          exact hpartition
        obtain ⟨old, hold⟩ := Option.isSome_iff_exists.mp (harmed.rows _ hi)
        have hle := hrow old (hsame.2 ▸ hold)
        exact Int.le_trans (hnext old hold) (max_le_max (by omega) (Int.le_refl _))
    · next hother =>
      rcases hbefore with ⟨place', hplace', hsame, -⟩ | hnext
      · obtain rfl : place = place' := Option.some.inj hplace'
        exact absurd ⟨htopic.symm, hsame.symm⟩ hother
      · exact hnext offset hnew
  · simp only [hlatch]
    exact harmed.congr rfl fun i hi => m.isSome_advance place hi

theorem request_evaluating (hw : Watches x h m) (ht : Tracks x h m) {framing : Framing}
    (hs : h.stage = .evaluating framing) : Watches x (h.request x.settings) m := by
  obtain ⟨answer, hready⟩ := ht.holds.ready
  have hasked := hw.ask ht
  have hcourse := hasked.course
  simp only [hs] at hcourse
  rw [History.request_evaluating hs hready]
  exact hasked.goOn hs rfl rfl hcourse

/-- Every request keeps the cursors and the ledger together. -/
theorem request (hw : Watches x h m) (ht : Tracks x h m) (hsteady : h.Steady)
    (hhomed : x.Homed h.log) (hsized : x.root.isSome → h.Sized x.topic) :
    Watches x (h.request x.settings) (h.stage.contents m) := by
  have hcourse := hw.course
  cases hs : h.stage with
  | creatingTopic => exact hw.request_creatingTopic hsteady hs
  | askingSubjects =>
    rw [hs] at hcourse
    rw [History.request_askingSubjects hs]
    exact hw.leave nofun hcourse
  | startingClock framing =>
    rw [hs] at hcourse
    rw [History.request_startingClock hs]
    exact hw.leave nofun hcourse
  | queryingPartitions framing deadline =>
    rw [hs] at hcourse
    rw [History.request_queryingPartitions hs]
    cases h.log.partitionNumbers x.settings.topic with
    | nil => exact hw.leave nofun hcourse
    | cons i rest => exact hw.leave nofun hcourse
  | checkingClock framing deadline =>
    rw [hs] at hcourse
    rw [History.request_checkingClock hs]
    split
    · exact hw.leave nofun trivial
    · exact hw.leave nofun hcourse
  | retrying framing deadline =>
    rw [hs] at hcourse
    rw [History.request_retrying hs, pause_eq hsteady.due]
    exact (hw.clock _).leave nofun hcourse
  | readingLedger framing partitions =>
    rw [hs] at hcourse
    obtain ⟨rows, hrows, -⟩ := ht.holds.ledger
    rw [History.request_readingLedger hs hrows]
    refine hw.leave ?_ (Course.noteNext ?_ ?_)
    · rw [Stage.phase_noteNext]
      nofun
    · rw [show h.captured = [] from hcourse]
      rfl
    · rw [show h.captured = [] from hcourse]
      rfl
  | queryingWatermarks framing partitions ledger noted i todo =>
    exact hw.request_queryingWatermarks ht hs
  | seeding framing partitions ledger noted seed todo => exact hw.request_seeding ht hsized hs
  | settingWatermark framing partitions noted => exact hw.request_settingWatermark ht hsteady hs
  | rereadingLedger framing partitions =>
    rw [hs] at hcourse
    obtain ⟨rows, hrows, -⟩ := ht.holds.ledger
    rw [History.request_rereadingLedger hs hrows]
    exact hw.leave nofun hcourse
  | assigning framing starts => exact hw.request_assigning ht hs
  | checkingStop framing =>
    rw [hs] at hcourse
    rw [History.request_checkingStop hs]
    split
    · exact hw.leave nofun trivial
    · exact hw.goOn hs rfl rfl hcourse
  | polling framing => exact hw.request_polling ht hsteady hs
  | applying framing place change => exact hw.request_applying ht hsteady hhomed hsized hs
  | recording framing place => exact hw.request_recording ht hsized hs
  | checkingLatch framing =>
    rw [hs] at hcourse
    rw [History.request_checkingLatch hs]
    split
    · exact hw.goOn hs rfl rfl hcourse
    · exact hw.goOn hs rfl rfl hcourse
  | evaluating framing => exact hw.request_evaluating ht hs
  | resting framing =>
    rw [hs] at hcourse
    rcases History.request_resting (s := x.settings) hs with hrequest | hrequest
    · rw [hrequest]
      exact hw.leave nofun trivial
    · have hclock := hw.clock (max h.world.schedule.now
        (h.world.schedule.now + x.settings.timing.backoff))
      rw [hrequest, pause_eq hsteady.due]
      exact hclock.goOn hs rfl rfl hcourse
  | closing outcome =>
    rw [History.request_closing hs]
    exact ⟨hw.marks, nofun, trivial⟩
  | finished outcome =>
    rw [History.request_finished hs]
    exact hw

/-! ## A whole history -/

theorem after (hw : Watches x h m) (ht : Tracks x h m) (hsteady : h.Steady) (hhomed : x.Homed h.log)
    (hsized : x.root.isSome → h.Sized x.topic) (e : Event) :
    Watches x (h.after x.settings e) (h.contentsAfter e m) := by
  cases e with
  | request => exact hw.request ht hsteady hhomed hsized
  | change c => exact hw.changeLog hsteady.sound c
  | stop kind => exact ⟨hw.marks, hw.abreast, hw.course⟩
  | ask => exact hw.ask ht
  | restart latch => exact ⟨nofun, nofun, rfl⟩

theorem start (log : Log) (store : StateStore) (files : FileTree) :
    Watches x (start log store files x.subjects) m :=
  ⟨nofun, nofun, rfl⟩

/-- Wherever runs have got to, the cursors and the ledger have kept together. -/
theorem run (hw : Watches x h m) (ht : Tracks x h m) (hsteady : h.Steady) (events : List Event)
    (hhome : ∀ key, x.home key = none)
    (hsized : x.root.isSome → (h.run x.settings events).Sized x.topic) :
    ∃ m', Tracks x (h.run x.settings events) m' ∧ Watches x (h.run x.settings events) m' := by
  have hhomed : x.Homed (h.run x.settings events).log := by
    intro i r hr c hc j hj
    rw [hhome] at hj
    cases hj
  exact ht.run_and hw hsteady events (.inr hhome) hhomed hsized
    fun h' m' e _ ht' hsteady' hhomed' hsized' hw' =>
      hw'.after ht' hsteady' hhomed' hsized' e

end Watches

/-- A run that consumes has a cursor for each partition. -/
theorem Tracks.exists_cursor_of_consuming (ht : Tracks x h m) (hphase : h.stage.phase = .consuming)
    {i : Int} (hi : i ∈ h.log.partitionNumbers x.topic) :
    ∃ c ∈ h.world.consumer.cursors, c.partition = i := by
  have hstand := ht.stand
  cases hs : h.stage with
  | checkingStop framing => rw [hs] at hstand; exact hstand.exists_cursor hi
  | polling framing => rw [hs] at hstand; exact hstand.exists_cursor hi
  | applying framing place change => rw [hs] at hstand; exact hstand.1.exists_cursor hi
  | recording framing place => rw [hs] at hstand; exact hstand.1.exists_cursor hi
  | checkingLatch framing => rw [hs] at hstand; exact hstand.exists_cursor hi
  | evaluating framing => rw [hs] at hstand; exact hstand.exists_cursor hi
  | resting framing => rw [hs] at hstand; exact hstand.exists_cursor hi
  | _ => rw [hs] at hphase; cases hphase

/-- No partition that is read retains a record at its cursor or beyond. -/
def Drained (topic : String) (h : History) : Prop :=
  ∀ c ∈ h.world.consumer.cursors, ∀ r ∈ h.log.records topic c.partition, r.offset < c.next

/-- The row of a partition is below the last record written before the run, and nothing is
retained there that could move it, but for a record that may be in flight. -/
structure Stalled (topic : String) (h : History) (rows : List Position) (i : Int)
    (w : Watermarks) : Prop where
  captured : (i, w) ∈ h.captured
  behind : ∃ offset, (⟨topic, i, offset⟩ : Position) ∈ rows ∧ offset + 1 < w.high
  nothing : h.log.records topic i = [] ∨
    ∃ place, h.stage.inFlight? = some place ∧ place.partition = i

/-- A partition whose row is below its watermark retains nothing. -/
theorem Watches.stalled (hw : Watches x h m) (ht : Tracks x h m) (hsteady : h.Steady)
    (hphase : h.stage.phase = .consuming) (hdrained : h.Drained x.topic) {rows : List Position}
    (hlists : m.Lists rows) {i : Int} {w : Watermarks} (hmark : (i, w) ∈ h.captured) {offset : Int}
    (hrow : m.offset? x.topic i = some offset) (hbehind : offset + 1 < w.high) :
    Stalled x.topic h rows i w := by
  refine ⟨hmark, ⟨offset, (hlists.mem _).mpr hrow, hbehind⟩, ?_⟩
  have hi : i ∈ h.log.partitionNumbers x.topic :=
    (hw.armed hphase).partitions ▸ List.mem_map_of_mem hmark
  obtain ⟨c, hc, rfl⟩ := ht.exists_cursor_of_consuming hphase hi
  rcases hw.abreast hphase c hc with ⟨place, hplace, hsame, -⟩ | hnext
  · exact .inr ⟨place, hplace, hsame⟩
  left
  by_contra hne
  -- a partition that is not empty retains the record before its end
  have hslot := hsteady.sound.slots x.topic c.partition
  have hmarks := hw.marks c.partition w hmark
  have hbound := hnext offset hrow
  rw [Log.records_eq] at hne
  have hlength := List.length_pos_iff.mpr hne
  cases hlast : (h.log.slot x.topic c.partition).get?
      ((h.log.slot x.topic c.partition).high - 1) with
  | none =>
    rw [Partition.get?_eq_none_iff (by rw [Partition.high]; omega)] at hlast
    omega
  | some r =>
    obtain ⟨hr, hoffset⟩ := hslot.get?_eq_some_iff.mp hlast
    have hbefore := hdrained c hc r (Log.records_eq ▸ hr)
    rw [Partition.high] at hoffset hmarks
    omega

/-- Take runs that follow one another on a store that was empty at first, cut off wherever, while
others append to the topic and drop records of it. Once the last of them consumes and its consumer
has nothing left to deliver, the store answers whether it is ready; it is not only if it has not
latched before and some partition is stalled. -/
theorem ready_unless_stalled (s : Settings) (n : Int) (changes : List LogChange)
    {store : StateStore} {files : FileTree} (hfresh : store.Fresh files)
    (subjects : Option (Except BrokerError (List String))) (events : List Event)
    (hsized : store.root?.isSome →
      ((start ((Log.empty n).changeAll changes) store files subjects).run s events).Sized s.topic)
    (hphase : ((start ((Log.empty n).changeAll changes) store files subjects).run s
      events).stage.phase = .consuming)
    (hdrained : ((start ((Log.empty n).changeAll changes) store files subjects).run s
      events).Drained s.topic) :
    let h := (start ((Log.empty n).changeAll changes) store files subjects).run s events
    h.captured.map Prod.fst = h.log.partitionNumbers s.topic ∧
      ∃ rows, h.world.store.ledger h.world.files = .ok rows ∧
        (h.ready = .ok true ∨ h.ready = .ok false) ∧
        (h.ready = .ok false ↔
          h.world.store.latch.latched = false ∧ ∃ i w, h.Stalled s.topic rows i w) := by
  intro h
  have hlog : ((Log.empty n).changeAll changes).Sound := (Log.sound_empty n).changeAll changes
  have hstart := Steady.start hlog store files subjects
  have hsteady : h.Steady := hstart.run events
  obtain ⟨m, ht, hw⟩ := Watches.run (x := ⟨s, subjects, store.root?, fun _ => none⟩)
    (Watches.start _ store files) (Tracks.start hlog hfresh rfl) hstart events (fun _ => rfl) hsized
  obtain ⟨rows, hrows, hlists⟩ := ht.holds.ledger
  have harmed := hw.armed hphase
  have hready : h.ready = .ok (h.world.store.latch.answers rows) :=
    (StateStore.ready_eq hrows).1
  refine ⟨harmed.partitions, rows, hrows, ?_, ?_⟩
  · rw [hready]
    cases h.world.store.latch.answers rows with
    | true => exact .inl rfl
    | false => exact .inr rfl
  rw [hready, Except.ok.injEq, Latch.answers, Bool.or_eq_false_iff]
  apply and_congr_right
  intro _
  rw [← Bool.not_eq_true, Latch.watermark, harmed.watermark, Option.getD_some,
    Latch.caughtUp_iff hlists]
  constructor
  · intro hnot
    by_contra hall
    refine hnot ⟨harmed.nonempty, fun i w hmark => ?_⟩
    obtain ⟨offset, hrow⟩ :=
      Option.isSome_iff_exists.mp (harmed.rows i (List.mem_map_of_mem hmark))
    have hzero := (ht.rows _ _ _ hrow).2.2.nonneg
    refine ⟨offset, hrow, ?_⟩
    have hreached : ¬ offset + 1 < w.high := fun hbehind =>
      hall ⟨i, w, hw.stalled ht hsteady hphase hdrained hlists hmark hrow hbehind⟩
    rw [Watermarks.lastWritten]
    split <;> omega
  · rintro ⟨i, w, hstalled⟩ ⟨-, hall⟩
    obtain ⟨offset, hmem, hbehind⟩ := hstalled.behind
    obtain ⟨offset', hrow, hle⟩ := hall i w hstalled.captured
    have hrow' : m.offset? s.topic i = some offset := (hlists.mem _).mp hmem
    have hzero := (ht.rows _ _ _ hrow').2.2.nonneg
    obtain rfl : offset = offset' := Option.some.inj (hrow'.symm.trans hrow)
    rw [Watermarks.lastWritten] at hle
    split at hle <;> omega

/-- A run is cut off after its first record. The log is cut behind that and grows, and a second run
reads the rest. -/
def caughtUpEvents : List Event :=
  List.replicate 13 .request ++
    [.change (.truncate "kv" 0 2), .change (.append "kv" ⟨[4], none, []⟩), .restart {}] ++
    List.replicate 20 .request

def caughtUp : History :=
  (start ((Log.empty 1).changeAll [.append "kv" ⟨[1], some [10], []⟩,
    .append "kv" ⟨[2], some [20], []⟩, .append "kv" ⟨[3], some [30], []⟩]) .openDict [] none).run
    ⟨"kv", .disabled, false, {}⟩ caughtUpEvents

theorem ready_unless_stalled_caughtUp :
    caughtUp.stage.phase = .consuming ∧ caughtUp.Drained "kv" ∧ caughtUp.ready = .ok true := by
  have hphase : caughtUp.stage.phase = .consuming := by cbv
  have hcursors : caughtUp.world.consumer.cursors = [⟨0, 4⟩] := by cbv
  have hrecords : caughtUp.log.records "kv" 0 =
      [⟨"kv", 0, 2, [3], some [30], []⟩, ⟨"kv", 0, 3, [4], none, []⟩] := by cbv
  have hdrained : caughtUp.Drained "kv" := by
    intro c hc r hr
    rw [hcursors, List.mem_singleton] at hc
    subst hc
    rw [hrecords] at hr
    simp only [List.mem_cons, List.not_mem_nil, or_false] at hr
    rcases hr with rfl | rfl <;> decide
  have hsized : StateStore.openDict.root?.isSome → caughtUp.Sized "kv" := by
    intro hroot
    cases hroot
  have hready := ready_unless_stalled ⟨"kv", .disabled, false, {}⟩ 1
    [.append "kv" ⟨[1], some [10], []⟩, .append "kv" ⟨[2], some [20], []⟩,
      .append "kv" ⟨[3], some [30], []⟩]
    (show StateStore.openDict.Fresh [] from rfl) none caughtUpEvents hsized hphase hdrained
  rw [← caughtUp] at hready
  obtain ⟨hcaptured, rows, hrows, hanswer, hiff⟩ := hready
  refine ⟨hphase, hdrained, hanswer.resolve_right fun hfalse => ?_⟩
  obtain ⟨-, i, w, hstalled⟩ := hiff.mp hfalse
  have hmarks : caughtUp.captured = [(0, ⟨2, 4⟩)] := by cbv
  have hi := hstalled.captured
  rw [hmarks, List.mem_singleton, Prod.mk.injEq] at hi
  obtain ⟨rfl, -⟩ := hi
  rcases hstalled.nothing with hempty | ⟨place, hplace, -⟩
  · rw [hrecords] at hempty
    cases hempty
  · have hnone : caughtUp.stage.inFlight? = none := by cbv
    rw [hnone] at hplace
    cases hplace

/-- A run notes a row and is cut off. All records are dropped, and a second run begins. -/
def stalledEvents : List Event :=
  List.replicate 7 .request ++ [.change (.truncate "kv" 0 2), .restart {}] ++
    List.replicate 10 .request

def stalled : History :=
  (start ((Log.empty 1).changeAll [.append "kv" ⟨[1], some [10], []⟩,
    .append "kv" ⟨[2], some [20], []⟩]) .openDict [] none).run
    ⟨"kv", .disabled, false, {}⟩ stalledEvents

/-- That run rests at the end of the log, which is empty, and the store is not ready. -/
theorem stalled_unready :
    stalled.stage.phase = .consuming ∧ stalled.stage.inFlight? = none ∧
      stalled.log.records "kv" 0 = [] ∧ stalled.Drained "kv" ∧ stalled.ready = .ok false := by
  have hcursors : stalled.world.consumer.cursors = [⟨0, 2⟩] := by cbv
  have hrecords : stalled.log.records "kv" 0 = [] := by cbv
  refine ⟨by cbv, by cbv, hrecords, fun c hc r hr => ?_, by cbv⟩
  rw [hcursors, List.mem_singleton] at hc
  subst hc
  rw [hrecords] at hr
  cases hr

end History

end KeyedLog.Replay
