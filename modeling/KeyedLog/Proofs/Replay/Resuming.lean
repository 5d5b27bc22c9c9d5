import KeyedLog.Proofs.Replay.Consuming
import Mathlib

/-!
# Resuming

Runs that follow one another on a store, each cut off anywhere, lose nothing: what the ledger has
come past has been applied, and once a consumer has nothing left to deliver, each key whose records
lie in one partition shows the last of them.
-/
namespace KeyedLog

namespace StateStore

variable {s : StateStore} {files : FileTree} {m : Contents}

theorem Holds.applyChange (h : s.Holds files m) (c : Change) (hroom : s.Accepts (m.apply c)) :
    s.Leaves (m.apply c) (s.applyChange files c.key c.value c.correlation) := by
  obtain ⟨k, value, correlation⟩ := c
  cases value with
  | some value => exact h.put k value correlation hroom
  | none => exact h.remove k

/-- Stores that differ in their latches hold the same. -/
theorem Holds.of_backing {s' : StateStore} (h : s.Holds files m)
    (hbacking : s'.backing = s.backing) : s'.Holds files m := by
  rw [Holds, hbacking]
  exact h

theorem ready_backing (s : StateStore) (files : FileTree) :
    (s.ready files).2.backing = s.backing := by
  rw [ready]
  split
  · rfl
  · split <;> rfl

theorem Holds.ready (h : s.Holds files m) : ∃ answer, (s.ready files).1 = .ok answer := by
  obtain ⟨rows, hrows, -⟩ := h.ledger
  rw [StateStore.ready, hrows]
  split
  · exact ⟨true, rfl⟩
  · exact ⟨_, rfl⟩

end StateStore

namespace Replay

/-- What the request at a stage makes of contents. -/
def Stage.contents (stage : Stage) (m : Contents) : Contents :=
  match stage with
  | seeding _ _ _ _ seed _ => m.advance seed
  | applying _ _ change => m.apply change
  | recording _ place => m.advance place
  | _ => m

namespace History

/-- What an event makes of contents. -/
def contentsAfter (h : History) (e : Event) (m : Contents) : Contents :=
  match e with
  | .request => h.stage.contents m
  | _ => m

variable {x : Setup} {h : History} {m : Contents}

/-- The rows of a ledger lie on the partitions of a topic. -/
def Bounded (topic : String) (h : History) (m : Contents) : Prop :=
  ∀ other i offset, m.offset? other i = some offset → other = topic ∧
    i ∈ h.log.partitionNumbers topic ∧ 0 ≤ offset ∧ offset ≤ (h.log.slot topic i).high

/-- Contents that go with a history of bounded size fit into a tree. -/
theorem Sized.fits {topic : String} (hsized : h.Sized topic) (hrows : Bounded topic h m)
    (hlive : ∀ key, (m.get? key).isSome → key ∈ h.received.map Change.key) : m.Fits where
  keys := by
    intro d
    refine lt_of_le_of_lt (Finset.card_le_card ?_) (hsized.keys d)
    intro key hkey
    rw [Contents.mem_keysIn] at hkey
    rw [Finset.mem_filter, List.mem_toFinset]
    exact ⟨hlive key hkey.1, hkey.2⟩
  topics := by
    intro d
    have hsub : m.topicsIn d ⊆ {topic} := by
      intro other hother
      rw [Contents.mem_topicsIn] at hother
      obtain ⟨⟨i, hi⟩, -⟩ := hother
      obtain ⟨offset, hoffset⟩ := Option.isSome_iff_exists.mp hi
      rw [Finset.mem_singleton]
      exact (hrows other i offset hoffset).1
    have hcard := Finset.card_le_card hsub
    rw [Finset.card_singleton] at hcard
    omega
  ranges := by
    intro other i offset hrow
    obtain ⟨-, hi, hzero, hle⟩ := hrows other i offset hrow
    have hlength := hsized.partitions
    have hhigh := hsized.offsets i
    rw [Log.mem_partitionNumbers] at hi
    simp only [Decimal.minI32, Decimal.maxI32, Decimal.minI64, Decimal.maxI64] at hhigh ⊢
    omega

namespace Tracks

variable {framing : Framing}

/-- A step that leaves everything but the stage as it is. -/
theorem move (ht : Tracks x h m) {stage : Stage}
    (hframing : ∀ framing, stage.framing? = some framing →
      framing = x.settings.framing x.subjects)
    (hstand : h.view.Stand x m stage) : Tracks x { h with stage := stage } m :=
  ⟨ht.subjects, ht.root, ht.holds, hframing, ht.rows, ht.base, ht.live, hstand⟩

/-- A step that knows the framing already. -/
theorem moveOn (ht : Tracks x h m) (hs : h.stage.framing? = some framing) {stage : Stage}
    (hframing : stage.framing? = some framing ∨ stage.framing? = none)
    (hstand : h.view.Stand x m stage) : Tracks x { h with stage := stage } m := by
  apply ht.move _ hstand
  intro framing' hframing'
  cases hframing with
  | inl hsame =>
    rw [hsame, Option.some.injEq] at hframing'
    exact hframing' ▸ ht.framing framing hs
  | inr hnone => simp [hnone] at hframing'

theorem clock (ht : Tracks x h m) (now : Nat) :
    Tracks x { h with world := { h.world with
      schedule := { h.world.schedule with now := now } } } m :=
  ⟨ht.subjects, ht.root, ht.holds, ht.framing, ht.rows, ht.base, ht.live, ht.stand⟩

/-! ## Writing to the store -/

theorem bounded (ht : Tracks x h m) : Bounded x.topic h m := by
  intro topic i offset hrow
  obtain ⟨htopic, hi, htracked⟩ := ht.rows topic i offset hrow
  exact ⟨htopic, hi, htracked.nonneg, htracked.le_high⟩

/-- A row for an offset that a replay has come to can be entered in the ledger. -/
theorem advance (ht : Tracks x h m) (hsized : x.root.isSome → h.Sized x.topic) {place : Position}
    (htopic : place.topic = x.topic)
    (hpartition : place.partition ∈ h.log.partitionNumbers x.topic)
    (htracked : h.view.Tracked x m place.partition place.offset) :
    (h.world.store.advance h.world.files place).1 = .ok () ∧
      ∀ stage, (∀ framing, stage.framing? = some framing →
          framing = x.settings.framing x.subjects) →
        h.view.Stand x (m.advance place) stage →
        Tracks x { h with
          stage := stage
          world := { h.world with
            store := (h.world.store.advance h.world.files place).2.1
            files := (h.world.store.advance h.world.files place).2.2 } } (m.advance place) := by
  have hrows : ∀ topic i offset, (m.advance place).offset? topic i = some offset →
      topic = x.topic ∧ i ∈ h.log.partitionNumbers x.topic ∧
        h.view.Tracked x (m.advance place) i offset := by
    intro topic i offset hrow
    rw [Contents.offset?_advance] at hrow
    split at hrow
    · next hsame =>
      obtain ⟨rfl, rfl⟩ := hsame
      rw [Option.some.injEq] at hrow
      subst hrow
      exact ⟨htopic, hpartition, htracked⟩
    · exact ht.rows topic i offset hrow
  have hbounded : Bounded x.topic h (m.advance place) := by
    intro topic i offset hrow
    obtain ⟨hsame, hi, htracked'⟩ := hrows topic i offset hrow
    exact ⟨hsame, hi, htracked'.nonneg, htracked'.le_high⟩
  have hleaves := ht.holds.advance place fun hroot =>
    (hsized (ht.root ▸ hroot)).fits hbounded ht.live
  refine ⟨hleaves.ok, fun stage hframing hstand => ?_⟩
  exact ⟨ht.subjects, hleaves.root.trans ht.root, hleaves.holds, hframing, hrows, ht.base, ht.live,
    hstand⟩

/-- The change at hand can be made. -/
theorem apply (ht : Tracks x h m) (hsteady : h.Steady) (hhomed : x.Homed h.log)
    (hsized : x.root.isSome → h.Sized x.topic) {place : Position} {change : Change}
    (hs : h.stage = .applying framing place change) :
    (h.world.store.applyChange h.world.files change.key change.value
        change.correlation).1 = .ok () ∧
      Tracks x { h with
        stage := .recording framing place
        world := { h.world with
          store := (h.world.store.applyChange h.world.files change.key change.value
            change.correlation).2.1
          files := (h.world.store.applyChange h.world.files change.key change.value
            change.correlation).2.2 }
        applied := h.applied ++ [(place, change)] } (m.apply change) := by
  have hstand := ht.stand
  rw [hs] at hstand
  obtain ⟨hreading, hhand⟩ := hstand
  obtain ⟨htracked, hbehind⟩ := hreading.tracked_atHand hhand
  have hlive : ∀ key, ((m.apply change).get? key).isSome → key ∈ h.received.map Change.key := by
    intro key hkey
    rw [Contents.get?_apply] at hkey
    split at hkey
    · next heq => exact heq ▸ hhand.received
    · exact ht.live key hkey
  have hbounded : Bounded x.topic h (m.apply change) := by
    intro topic i offset hrow
    rw [Contents.offset?_apply] at hrow
    exact ht.bounded topic i offset hrow
  have hleaves := ht.holds.applyChange change fun hroot =>
    (hsized (ht.root ▸ hroot)).fits hbounded hlive
  refine ⟨hleaves.ok, ht.subjects, hleaves.root.trans ht.root, hleaves.holds, ?_, ?_, ?_, hlive, ?_⟩
  · intro framing' hframing'
    have hsame := ht.framing framing' (by rw [hs]; exact hframing')
    exact hsame
  · intro topic i offset hrow
    rw [Contents.offset?_apply] at hrow
    obtain ⟨htopic, hi, hrow'⟩ := ht.rows topic i offset hrow
    refine ⟨htopic, hi, ?_⟩
    by_cases heq : i = place.partition
    · have hle := hbehind offset (by rw [← heq, ← htopic]; exact hrow)
      rw [heq]
      exact (htracked.apply_self hhand hsteady.sound).mono hrow'.nonneg (by omega)
    · exact hrow'.apply_other hhand hhomed heq
  · exact fun i => View.tracked_low_apply hhand hsteady.sound hhomed htracked i (ht.base i)
  · refine ⟨hreading.apply hhand hsteady.sound hhomed, hhand.topic, htracked.nonneg,
      hhand.partition, fun c' hc' hi => ?_, ?_⟩
    · have hnext := hhand.next c' hc' hi
      omega
    · rw [Contents.offset?_apply]
      exact hbehind

/-! ## One request -/

/-- A change of the latch does not concern the contents. -/
theorem relatch (ht : Tracks x h m) (store : StateStore)
    (hbacking : store.backing = h.world.store.backing) :
    Tracks x { h with world := { h.world with store := store } } m :=
  ⟨ht.subjects, by
    have hroot := ht.root
    rw [StateStore.root?] at hroot ⊢
    rw [hbacking]
    exact hroot,
    ht.holds.of_backing hbacking, ht.framing, ht.rows, ht.base, ht.live, ht.stand⟩

theorem request_creatingTopic (ht : Tracks x h m) (hsteady : h.Steady)
    (hs : h.stage = .creatingTopic) : Tracks x (h.request x.settings) m := by
  have hlog := ht.changeLog (c := .create x.topic none) hsteady.sound (.inl trivial)
  have hexist : (h.changeLog (.create x.topic none)).log.Exists x.topic :=
    Log.exists_createTopic _
  rw [History.request_creatingTopic hs]
  by_cases hregistry : x.settings.registry
  · rw [if_pos hregistry]
    exact hlog.move nofun ⟨hexist, hregistry⟩
  · rw [if_neg hregistry]
    refine hlog.move (fun framing hframing => ?_) hexist
    rw [Settings.framing, if_neg hregistry]
    exact (Option.some.inj hframing).symm

theorem request_askingSubjects (ht : Tracks x h m) (hs : h.stage = .askingSubjects) :
    Tracks x (h.request x.settings) m := by
  have hstand := ht.stand
  rw [hs] at hstand
  rw [History.request_askingSubjects hs]
  refine ht.move (fun framing hframing => ?_) hstand.1
  rw [Settings.framing, if_pos hstand.2, ← ht.subjects]
  exact (Option.some.inj hframing).symm

theorem request_queryingPartitions (ht : Tracks x h m) {deadline : Nat}
    (hs : h.stage = .queryingPartitions framing deadline) :
    Tracks x (h.request x.settings) m := by
  have hstand := ht.stand
  have hframing : h.stage.framing? = some framing := by rw [hs]; rfl
  rw [hs] at hstand
  rw [History.request_queryingPartitions hs]
  cases hpartitions : h.log.partitionNumbers x.settings.topic with
  | nil => exact ht.moveOn hframing (.inl rfl) hstand
  | cons i rest => exact ht.moveOn hframing (.inl rfl) ⟨hstand, hpartitions.symm⟩

theorem request_readingLedger (ht : Tracks x h m) {partitions : List Int}
    (hs : h.stage = .readingLedger framing partitions) :
    Tracks x (h.request x.settings) m := by
  have hstand := ht.stand
  have hframing : h.stage.framing? = some framing := by rw [hs]; rfl
  rw [hs] at hstand
  obtain ⟨rows, hrows, hlists⟩ := ht.holds.ledger
  rw [History.request_readingLedger hs hrows]
  have hnoting : h.view.Noting x m partitions rows partitions :=
    ⟨hstand.1, hstand.2, fun i hi => hi, fun i hi => .inl hi, fun row hrow => by
      rw [(hlists.mem row).mp hrow]
      rfl⟩
  exact ht.moveOn hframing (.inl (View.framing?_noteNext _ _ _ _ _)) (hnoting.stand_noteNext _ _)

theorem request_queryingWatermarks (ht : Tracks x h m) {partitions : List Int}
    {ledger noted : List Position} {i : Int} {todo : List Int}
    (hs : h.stage = .queryingWatermarks framing partitions ledger noted i todo) :
    Tracks x (h.request x.settings) m := by
  have hstand := ht.stand
  have hframing : h.stage.framing? = some framing := by rw [hs]; rfl
  rw [hs] at hstand
  have hnoting : h.view.Noting x m partitions ledger (i :: todo) := hstand
  have hi : i ∈ h.log.partitionNumbers x.settings.topic :=
    hnoting.all ▸ hnoting.rest i List.mem_cons_self
  rw [History.request_queryingWatermarks hs hi, Stage.note]
  have hmove : ∀ stage : Stage, stage.framing? = some framing → h.view.Stand x m stage →
      Tracks x { h with
        stage := stage
        captured := h.captured ++ [(i, (h.log.slot x.settings.topic i).watermarks)] } m := by
    intro stage hstage hstand
    have hnext := ht.moveOn hframing (.inl hstage) hstand
    exact ⟨hnext.subjects, hnext.root, hnext.holds, hnext.framing, hnext.rows, hnext.base,
      hnext.live, hnext.stand⟩
  split
  · next hany =>
    obtain ⟨row, hrow, hsame⟩ := List.any_eq_true.mp hany
    simp only [Position.samePartition, Bool.and_eq_true, beq_iff_eq] at hsame
    have hsome := hnoting.ledger row hrow
    rw [hsame.1, hsame.2] at hsome
    exact hmove _ (View.framing?_noteNext _ _ _ _ _) ((hnoting.tail hsome).stand_noteNext _ _)
  · exact hmove _ rfl ⟨hnoting, rfl, ht.base i⟩

theorem request_seeding (ht : Tracks x h m) (hsized : x.root.isSome → h.Sized x.topic)
    {partitions : List Int} {ledger noted : List Position} {seed : Position} {todo : List Int}
    (hs : h.stage = .seeding framing partitions ledger noted seed todo) :
    Tracks x (h.request x.settings) (m.advance seed) := by
  have hstand := ht.stand
  rw [hs] at hstand
  obtain ⟨hnoting, htopic, htracked⟩ := hstand
  have hpartition : seed.partition ∈ h.log.partitionNumbers x.topic :=
    hnoting.all ▸ hnoting.rest _ List.mem_cons_self
  obtain ⟨hok, hnext⟩ := ht.advance hsized htopic hpartition htracked
  rw [History.request_seeding hs hok]
  refine hnext _ (fun framing' hframing' => ?_) ((hnoting.seed htopic).stand_noteNext _ _)
  rw [View.framing?_noteNext] at hframing'
  exact ht.framing framing' (by rw [hs]; exact hframing')

theorem request_settingWatermark (ht : Tracks x h m) {partitions : List Int}
    {noted : List Position} (hs : h.stage = .settingWatermark framing partitions noted) :
    Tracks x (h.request x.settings) m := by
  have hstand := ht.stand
  have hframing : h.stage.framing? = some framing := by rw [hs]; rfl
  rw [hs] at hstand
  rw [History.request_settingWatermark hs]
  have hlatch := ht.relatch { h.world.store with
    latch := h.world.store.latch.setWatermark noted } rfl
  exact hlatch.moveOn hframing (.inl rfl) hstand

theorem request_rereadingLedger (ht : Tracks x h m) {partitions : List Int}
    (hs : h.stage = .rereadingLedger framing partitions) :
    Tracks x (h.request x.settings) m := by
  have hstand := ht.stand
  have hframing : h.stage.framing? = some framing := by rw [hs]; rfl
  rw [hs] at hstand
  have hnoting : h.view.Noting x m partitions [] [] := hstand
  have hseeded : ∀ i ∈ partitions, (m.offset? x.topic i).isSome := fun i hi =>
    (hnoting.rows i hi).resolve_left List.not_mem_nil
  obtain ⟨rows, hrows, hlists⟩ := ht.holds.ledger
  rw [History.request_rereadingLedger hs hrows]
  refine ht.moveOn hframing (.inl rfl) ⟨hnoting.exist, ?_, ?_⟩
  · intro i hi
    exact hseeded i (hnoting.all ▸ hi)
  · rw [← hnoting.all]
    refine Start.resolve_eq hlists (hnoting.all ▸ h.log.nodup_partitionNumbers x.topic) fun i => ?_
    refine ⟨hseeded i, fun hrow => ?_⟩
    obtain ⟨offset, hoffset⟩ := Option.isSome_iff_exists.mp hrow
    rw [hnoting.all]
    exact (ht.rows x.topic i offset hoffset).2.1

/-- Closing asks nothing of the contents. -/
theorem toClosing (ht : Tracks x h m) (outcome : Outcome) :
    Tracks x { h with stage := .closing outcome } m :=
  ht.move nofun trivial

theorem request_assigning (ht : Tracks x h m) (hsteady : h.Steady)
    {starts : List PartitionStart} (hs : h.stage = .assigning framing starts) :
    Tracks x (h.request x.settings) m := by
  have hstand := ht.stand
  rw [hs] at hstand
  obtain ⟨hexist, hseeded, hstarts⟩ := hstand
  rcases History.request_assigning (s := x.settings) hs with ⟨e, hrequest⟩ | hrequest
  · rw [hrequest]
    exact ht.toClosing _
  · rw [hrequest]
    refine ⟨ht.subjects, ht.root, ht.holds, ?_, ht.rows, ht.base, ht.live, ?_⟩
    · intro framing' hframing'
      exact ht.framing framing' (by rw [hs]; exact hframing')
    · exact View.reading_assigned hsteady.sound hexist hseeded
        (fun i offset hrow => (ht.rows x.topic i offset hrow).2.2) ht.base hstarts

theorem request_polling (ht : Tracks x h m) (hsteady : h.Steady)
    (hs : h.stage = .polling framing) : Tracks x (h.request x.settings) m := by
  have hstand := ht.stand
  have hframing : h.stage.framing? = some framing := by rw [hs]; rfl
  rw [hs] at hstand
  have hreading : h.view.Reading x m Cursor.next := hstand
  rcases History.request_polling (s := x.settings) hs hsteady.due with
    ⟨outcome, hrequest⟩ | ⟨now, -, hrequest⟩ | ⟨r, c, hnext, hdecoded⟩
  · rw [hrequest]
    exact ht.toClosing _
  · rw [hrequest]
    exact (ht.clock now).moveOn hframing (.inl rfl) hstand
  · obtain ⟨k, cursor, hcursor, hget, rfl⟩ := Consumer.next?_eq_some hreading.topic hnext
    have hknown := ht.framing framing hframing
    rcases hdecoded with ⟨change, hdecode, hrequest⟩ | ⟨e, -, hrequest⟩
    · rw [hrequest]
      have hdecode' : x.decoder.decode r = .ok change := by
        rw [hknown] at hdecode
        exact hdecode
      refine ⟨ht.subjects, ht.root, ht.holds, ?_, ht.rows, ht.base, ?_, ?_⟩
      · intro framing' hframing'
        exact ht.framing framing' (by rw [hs]; exact hframing')
      · intro key hkey
        simp only [List.map_append, List.mem_append]
        exact .inl (ht.live key hkey)
      · exact ⟨hreading.deliver hsteady.sound ht.base hcursor hget,
          hreading.atHand hsteady.sound hcursor hget hdecode'⟩
    · rw [hrequest]
      exact ⟨ht.subjects, ht.root, ht.holds, nofun, ht.rows, ht.base, ht.live, trivial⟩

theorem request_recording (ht : Tracks x h m) (hsized : x.root.isSome → h.Sized x.topic)
    {place : Position} (hs : h.stage = .recording framing place) :
    Tracks x (h.request x.settings) (m.advance place) := by
  have hstand := ht.stand
  rw [hs] at hstand
  obtain ⟨hreading, htopic, hzero, hpartition, hbehind, -⟩ := hstand
  have htracked := hreading.tracked_behind hzero hpartition hbehind
  obtain ⟨hok, hnext⟩ := ht.advance hsized htopic hpartition htracked
  rw [History.request_recording hs hok]
  refine hnext _ (fun framing' hframing' => ht.framing framing' (by rw [hs]; exact hframing')) ?_
  refine ⟨hreading.exist, hreading.topic, hreading.cursors, hreading.turn, hreading.tracked, ?_⟩
  intro c' hc' offset hrow
  rw [Contents.offset?_advance] at hrow
  split at hrow
  · next hsame =>
    have hlt := hbehind c' hc' hsame.2
    rw [Option.some.injEq] at hrow
    omega
  · exact hreading.rows c' hc' offset hrow

theorem request_evaluating (ht : Tracks x h m) (hs : h.stage = .evaluating framing) :
    Tracks x (h.request x.settings) m := by
  have hstand := ht.stand
  have hframing : h.stage.framing? = some framing := by rw [hs]; rfl
  rw [hs] at hstand
  obtain ⟨answer, hready⟩ := ht.holds.ready
  rw [History.request_evaluating hs hready]
  have hlatch := ht.relatch _ (h.world.store.ready_backing h.world.files)
  exact hlatch.moveOn hframing (.inl rfl) hstand

/-- Every request keeps the store in step with the log. -/
theorem request (ht : Tracks x h m) (hsteady : h.Steady) (hhomed : x.Homed h.log)
    (hsized : x.root.isSome → h.Sized x.topic) :
    Tracks x (h.request x.settings) (h.stage.contents m) := by
  have hstand := ht.stand
  cases hs : h.stage with
  | creatingTopic => exact ht.request_creatingTopic hsteady hs
  | askingSubjects => exact ht.request_askingSubjects hs
  | startingClock framing =>
    rw [hs] at hstand
    rw [History.request_startingClock hs]
    exact ht.moveOn (by rw [hs]; rfl) (.inl rfl) hstand
  | queryingPartitions framing deadline => exact ht.request_queryingPartitions hs
  | checkingClock framing deadline =>
    rw [hs] at hstand
    rw [History.request_checkingClock hs]
    split
    · exact ht.toClosing _
    · exact ht.moveOn (by rw [hs]; rfl) (.inl rfl) hstand
  | retrying framing deadline =>
    rw [hs] at hstand
    rw [History.request_retrying hs, pause_eq hsteady.due]
    exact (ht.clock _).moveOn (by rw [hs]; rfl) (.inl rfl) hstand
  | readingLedger framing partitions => exact ht.request_readingLedger hs
  | queryingWatermarks framing partitions ledger noted i todo =>
    exact ht.request_queryingWatermarks hs
  | seeding framing partitions ledger noted seed todo => exact ht.request_seeding hsized hs
  | settingWatermark framing partitions noted => exact ht.request_settingWatermark hs
  | rereadingLedger framing partitions => exact ht.request_rereadingLedger hs
  | assigning framing starts => exact ht.request_assigning hsteady hs
  | checkingStop framing =>
    rw [hs] at hstand
    rw [History.request_checkingStop hs]
    split
    · exact ht.toClosing _
    · exact ht.moveOn (by rw [hs]; rfl) (.inl rfl) hstand
  | polling framing => exact ht.request_polling hsteady hs
  | applying framing place change =>
    obtain ⟨hok, hnext⟩ := ht.apply hsteady hhomed hsized hs
    rw [History.request_applying hs hok]
    exact hnext
  | recording framing place => exact ht.request_recording hsized hs
  | checkingLatch framing =>
    rw [hs] at hstand
    rw [History.request_checkingLatch hs]
    split
    · exact ht.moveOn (by rw [hs]; rfl) (.inl rfl) hstand
    · exact ht.moveOn (by rw [hs]; rfl) (.inl rfl) hstand
  | evaluating framing => exact ht.request_evaluating hs
  | resting framing =>
    rw [hs] at hstand
    rcases History.request_resting (s := x.settings) hs with hrequest | hrequest
    · rw [hrequest]
      exact ht.toClosing _
    · rw [hrequest, pause_eq hsteady.due]
      exact (ht.clock _).moveOn (by rw [hs]; rfl) (.inl rfl) hstand
  | closing outcome =>
    rw [History.request_closing hs]
    exact ⟨ht.subjects, ht.root, ht.holds, nofun, ht.rows, ht.base, ht.live, trivial⟩
  | finished outcome =>
    rw [History.request_finished hs]
    exact ht

/-! ## A whole history -/

/-- No event makes the store fall out of step with the log. -/
theorem after (ht : Tracks x h m) (hsteady : h.Steady) (hhomed : x.Homed h.log)
    (hsized : x.root.isSome → h.Sized x.topic) {e : Event}
    (hkeep : e.Retains x.topic ∨ ∀ key, x.home key = none) :
    Tracks x (h.after x.settings e) (h.contentsAfter e m) := by
  cases e with
  | request => exact ht.request hsteady hhomed hsized
  | change c => exact ht.changeLog hsteady.sound hkeep
  | stop kind =>
    exact ⟨ht.subjects, ht.root, ht.holds, ht.framing, ht.rows, ht.base, ht.live, ht.stand⟩
  | ask => exact ht.relatch _ (h.world.store.ready_backing h.world.files)
  | restart latch =>
    have hlatch := ht.relatch { h.world.store with latch := latch } rfl
    exact ⟨hlatch.subjects, hlatch.root, hlatch.holds, nofun, hlatch.rows, hlatch.base,
      hlatch.live, trivial⟩

end Tracks

/-- An event that drops nothing of a topic leaves the records there that were there before. -/
theorem homed_of_after (hsteady : h.Steady) {e : Event}
    (hkeep : e.Retains x.topic ∨ ∀ key, x.home key = none)
    (hhomed : x.Homed (h.after x.settings e).log) : x.Homed h.log := by
  cases hkeep with
  | inr hnone =>
    intro i r hr c hc j hj
    rw [hnone] at hj
    cases hj
  | inl hretains =>
    rcases (log_after (s := x.settings) hsteady.due e).2 with hlog | ⟨c, hlog, hc⟩
    · rwa [hlog] at hhomed
    · rw [hlog] at hhomed
      intro i r hr
      exact hhomed i r ((Log.grows_slot hsteady.sound ((hc _).1 hretains) i).mem hr)

/-- A history was no larger one event earlier. -/
theorem Sized.of_after {topic : String} {s : Settings} (hsteady : h.Steady) {e : Event}
    (hsized : (h.after s e).Sized topic) : h.Sized topic := by
  obtain ⟨hpartitions, hoffsets, hkeys⟩ := hsized
  have hmore : ∀ d, ((h.received.map Change.key).toFinset.filter fun key => digest key = d).card <
      2 ^ 32 := by
    intro d
    refine lt_of_le_of_lt (Finset.card_le_card ?_) (hkeys d)
    apply Finset.filter_subset_filter
    intro key
    simp only [List.mem_toFinset]
    exact fun hkey => List.map_subset Change.key (received_after s h e).subset hkey
  rcases (log_after (s := s) hsteady.due e).2 with hlog | ⟨c, hlog, -⟩
  · rw [hlog] at hpartitions hoffsets
    exact ⟨hpartitions, hoffsets, hmore⟩
  · rw [hlog] at hpartitions hoffsets
    refine ⟨?_, fun i => ?_, hmore⟩
    · exact Nat.le_trans (Log.length_partitionsOf_change hsteady.sound topic c) hpartitions
    · exact Int.le_trans (Log.changes_slot hsteady.sound c topic i).high_le (hoffsets i)

/-- At the start a fresh store is in step with any log. -/
theorem Tracks.start {log : Log} (hlog : log.Sound) {store : StateStore} {files : FileTree}
    (hfresh : store.Fresh files) (hroot : store.root? = x.root) :
    Tracks x (start log store files x.subjects) {} := by
  refine ⟨rfl, hroot, hfresh.holds, nofun, ?_, fun i => ?_, ?_, trivial⟩
  · intro topic i offset hrow
    rw [Contents.offset?_empty] at hrow
    cases hrow
  · exact Partition.Tracked.at_low (hlog.slots x.topic i)
      (.of_empty fun key => Contents.get?_empty key)
  · intro key hkey
    rw [Contents.get?_empty] at hkey
    cases hkey

/-- After any events, the store is in step with the log, and with it goes whatever each event
keeps. -/
theorem Tracks.run_and {p : History → Contents → Prop} (ht : Tracks x h m) (hp : p h m)
    (hsteady : h.Steady) (events : List Event)
    (hkeep : (∀ e ∈ events, e.Retains x.topic) ∨ ∀ key, x.home key = none)
    (hhomed : x.Homed (h.run x.settings events).log)
    (hsized : x.root.isSome → (h.run x.settings events).Sized x.topic)
    (hafter : ∀ h' m', ∀ e ∈ events, Tracks x h' m' → h'.Steady → x.Homed h'.log →
      (x.root.isSome → h'.Sized x.topic) → p h' m' →
        p (h'.after x.settings e) (h'.contentsAfter e m')) :
    ∃ m', Tracks x (h.run x.settings events) m' ∧ p (h.run x.settings events) m' := by
  induction events using List.reverseRecOn with
  | nil => exact ⟨m, ht, hp⟩
  | append_singleton events e ih =>
    have hbefore := hsteady.run (s := x.settings) events
    rw [run_concat] at hhomed hsized ⊢
    have he : e ∈ events ++ [e] := List.mem_append_right _ List.mem_cons_self
    have hkeep' : e.Retains x.topic ∨ ∀ key, x.home key = none :=
      hkeep.imp_left fun hall => hall e he
    have hhomed' := homed_of_after hbefore hkeep' hhomed
    have hsized' := fun hroot => (hsized hroot).of_after hbefore
    obtain ⟨m', ht', hp'⟩ := ih (hkeep.imp_left fun hall e he => hall e (List.mem_append_left _ he))
      hhomed' hsized' fun h' m' e he => hafter h' m' e (List.mem_append_left _ he)
    exact ⟨_, ht'.after hbefore hhomed' hsized' hkeep',
      hafter _ _ e he ht' hbefore hhomed' hsized' hp'⟩

theorem Tracks.run (ht : Tracks x h m) (hsteady : h.Steady) (events : List Event)
    (hkeep : (∀ e ∈ events, e.Retains x.topic) ∨ ∀ key, x.home key = none)
    (hhomed : x.Homed (h.run x.settings events).log)
    (hsized : x.root.isSome → (h.run x.settings events).Sized x.topic) :
    ∃ m', Tracks x (h.run x.settings events) m' := by
  obtain ⟨m', ht', -⟩ := ht.run_and (p := fun _ _ => True) trivial hsteady events hkeep hhomed
    hsized fun _ _ _ _ _ _ _ _ _ => trivial
  exact ⟨m', ht'⟩

/-- A run consumes, nothing is at hand, and its consumer has nothing left to deliver. -/
structure CaughtUp (h : History) : Prop where
  phase : h.stage.phase = .consuming
  nothing : h.stage.atHand? = none
  ended : h.world.consumer.next? h.log = none

theorem Tracks.reading_of_caughtUp (ht : Tracks x h m) (hcaught : h.CaughtUp) :
    h.view.Reading x m Cursor.next := by
  obtain ⟨hphase, hnothing, -⟩ := hcaught
  have hstand := ht.stand
  cases hs : h.stage with
  | checkingStop framing => rwa [hs] at hstand
  | polling framing => rwa [hs] at hstand
  | applying framing place change =>
    rw [hs] at hnothing
    cases hnothing
  | recording framing place =>
    rw [hs] at hstand
    exact hstand.1
  | checkingLatch framing => rwa [hs] at hstand
  | evaluating framing => rwa [hs] at hstand
  | resting framing => rwa [hs] at hstand
  | _ => rw [hs] at hphase; cases hphase

/-- With nothing left to deliver, a key at home in a partition shows its last record. -/
theorem Tracks.get?_of_caughtUp (ht : Tracks x h m) (hcaught : h.CaughtUp) {key : Bytes} {i : Int}
    (hkey : x.home key = some i) :
    m.get? key = x.decoder.lastStored? key (h.log.slot x.topic i).records := by
  have hreading := ht.reading_of_caughtUp hcaught
  by_cases hi : i ∈ h.log.partitionNumbers x.topic
  · obtain ⟨c, hc, rfl⟩ := hreading.exists_cursor hi
    have hend := Consumer.high_le_of_next?_eq_none hreading.topic hreading.turn hcaught.ended hc
    have htracked := hreading.tracked c hc
    have hbase := ht.base c.partition
    have hhigh : h.view.Tracked x m c.partition (h.log.slot x.topic c.partition).high := by
      rcases max_choice c.next (h.log.slot x.topic c.partition).low with hmax | hmax
      · rw [hmax] at hend
        exact htracked.mono (Int.le_trans hbase.nonneg hbase.le_high) hend
      · rw [hmax] at hend
        exact hbase.mono (Int.le_trans hbase.nonneg hbase.le_high) hend
    exact hhigh.shows.at_high hkey
  · -- a partition that is not there is at its end from the start
    have hbase := ht.base i
    rw [View.Tracked, show h.view.log = h.log from rfl, Log.slot_of_not_mem hi] at hbase
    rw [Log.slot_of_not_mem hi]
    exact Partition.Shows.at_high hbase.shows hkey

/-- The records of a topic that make changes of a key all lie in one partition. -/
def KeptIn (d : Decoder) (log : Log) (topic : String) (key : Bytes) (i : Int) : Prop :=
  ∀ j, ∀ r ∈ log.records topic j, ∀ c, d.decode r = .ok c → c.key = key → j = i

/-- With nothing left to deliver, such a key shows the last of its records. -/
theorem get?_of_keptIn (s : Settings) {log : Log} (hlog : log.Sound) {store : StateStore}
    {files : FileTree} (hfresh : store.Fresh files)
    (subjects : Option (Except BrokerError (List String))) (events : List Event)
    (hretains : ∀ e ∈ events, e.Retains s.topic)
    (hsized : store.root?.isSome →
      ((start log store files subjects).run s events).Sized s.topic)
    (hcaught : ((start log store files subjects).run s events).CaughtUp) {key : Bytes} {i : Int}
    (hkept : KeptIn (s.decoder subjects) ((start log store files subjects).run s events).log
      s.topic key i) :
    let h := (start log store files subjects).run s events
    h.world.store.get? h.world.files key =
      .ok ((s.decoder subjects).lastStored? key (h.log.slot s.topic i).records) := by
  intro h
  have hhomed : ∀ i', ∀ r ∈ (h.log.slot s.topic i').records, ∀ c,
      (s.decoder subjects).decode r = .ok c →
        ∀ j, (if c.key = key then some i else none) = some j → j = i' := by
    intro i' r hr c hc j hj
    split at hj
    · next hkey =>
      rw [hkept i' r (Log.records_eq ▸ hr) c hc hkey]
      exact (Option.some.inj hj).symm
    · cases hj
  obtain ⟨m, ht⟩ := (Tracks.start
    (x := ⟨s, subjects, store.root?, fun k => if k = key then some i else none⟩) hlog hfresh
    rfl).run (Steady.start hlog store files subjects) events (.inl hretains) hhomed hsized
  rw [ht.holds.get? key]
  congr 1
  exact ht.get?_of_caughtUp hcaught (if_pos rfl)

/-- Take runs that follow one another on a store that was empty at first, cut off wherever, while
others append to the topic. At any time everything below a row of the ledger has been applied; and
once a run has nothing left to apply, each key whose records lie in one partition shows the last of
them, or nothing if that is a tombstone or there is none. -/
theorem run_resumes (s : Settings) (n : Int) (changes : List LogChange) {store : StateStore}
    {files : FileTree} (hfresh : store.Fresh files)
    (subjects : Option (Except BrokerError (List String))) (events : List Event)
    (hretains : ∀ e ∈ events, e.Retains s.topic)
    (hsized : store.root?.isSome →
      ((start ((Log.empty n).changeAll changes) store files subjects).run s events).Sized
        s.topic) :
    let h := (start ((Log.empty n).changeAll changes) store files subjects).run s events
    let d := s.decoder subjects
    (∃ rows, h.world.store.ledger h.world.files = .ok rows ∧ ∀ row ∈ rows, row.topic = s.topic ∧
      ∀ r ∈ h.log.records s.topic row.partition, r.offset < row.offset →
        ∃ c, d.decode r = .ok c ∧ (r.place, c) ∈ h.applied) ∧
    (h.CaughtUp → ∀ key i, KeptIn d h.log s.topic key i →
      h.world.store.get? h.world.files key =
        .ok (d.lastStored? key (h.log.records s.topic i))) := by
  intro h d
  have hlog : ((Log.empty n).changeAll changes).Sound := (Log.sound_empty n).changeAll changes
  refine ⟨?_, fun hcaught key i hkept => ?_⟩
  · obtain ⟨m, ht⟩ := (Tracks.start (x := ⟨s, subjects, store.root?, fun _ => none⟩) hlog hfresh
      rfl).run (Steady.start hlog store files subjects) events (.inl hretains)
      (fun _ _ _ _ _ _ hj => by cases hj) hsized
    obtain ⟨rows, hrows, hlists⟩ := ht.holds.ledger
    refine ⟨rows, hrows, fun row hrow => ?_⟩
    obtain ⟨htopic, -, htracked⟩ := ht.rows _ _ _ ((hlists.mem row).mp hrow)
    exact ⟨htopic, fun r hr hlt => htracked.done r (Log.records_eq ▸ hr) hlt⟩
  · rw [Log.records_eq]
    exact get?_of_keptIn s hlog hfresh subjects events hretains hsized hcaught hkept

/-- A run that is cut off when it has applied a tombstone but not recorded it, and one that follows
while another record comes. -/
def cutOffEvents : List Event :=
  List.replicate 20 .request ++
    [.restart {}, .change (.append "kv" ⟨[1], some [11], []⟩)] ++ List.replicate 32 .request

def cutOff : History :=
  (start ((Log.empty 2).changeAll
    [.append "kv" ⟨[1], some [10], []⟩, .append "kv" ⟨[1], none, []⟩]) .openDict [] none).run
    ⟨"kv", .disabled, false, {}⟩ cutOffEvents

theorem run_resumes_cutOff :
    cutOff.CaughtUp ∧ cutOff.world.store.get? cutOff.world.files [1] = .ok (some ⟨[11], ""⟩) := by
  have hresumes := run_resumes ⟨"kv", .disabled, false, {}⟩ 2
    [.append "kv" ⟨[1], some [10], []⟩, .append "kv" ⟨[1], none, []⟩]
    (show StateStore.openDict.Fresh [] from rfl) none cutOffEvents
    (by simp [cutOffEvents, or_imp, forall_and, Event.Retains, LogChange.Retains]) nofun
  rw [← cutOff] at hresumes
  have hcaught : cutOff.CaughtUp := ⟨by cbv, by cbv, by cbv⟩
  have hkept : KeptIn ⟨.disabled, {}⟩ cutOff.log "kv" [1] 1 := by
    intro j r hr c _ _
    have hnumbers : cutOff.log.partitionNumbers "kv" = [0, 1] := by cbv
    have hj : j ∈ cutOff.log.partitionNumbers "kv" := by
      by_contra hj
      rw [Log.records_eq, Log.slot_of_not_mem hj] at hr
      cases hr
    rw [hnumbers] at hj
    simp only [List.mem_cons, List.not_mem_nil, or_false] at hj
    rcases hj with rfl | rfl
    · have hnone : cutOff.log.records "kv" 0 = [] := by cbv
      rw [hnone] at hr
      cases hr
    · rfl
  have hlast : Decoder.lastStored? ⟨.disabled, {}⟩ [1] (cutOff.log.records "kv" 1) =
      some ⟨[11], ""⟩ := by cbv
  refine ⟨hcaught, ?_⟩
  rw [← hlast]
  exact hresumes.2 hcaught [1] 1 hkept

end History

end Replay

end KeyedLog
