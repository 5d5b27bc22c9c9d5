import KeyedLog.Proofs.Decode
import KeyedLog.Proofs.Replay.Readiness

/-!
# A record that does not decode

A run ends with the first record that does not decode, and leaves no trace of it: the store is what
it was once the record before had been applied. This holds of any log and any store.
-/
namespace KeyedLog

namespace StateStore

variable {s s' : StateStore} {files : FileTree}

theorem get?_of_backing (h : s'.backing = s.backing) (key : Bytes) :
    s'.get? files key = s.get? files key := by
  rw [get?, get?, h]

theorem ledger_of_backing (h : s'.backing = s.backing) : s'.ledger files = s.ledger files := by
  rw [ledger, ledger, h]

/-- Asking does not change the watermark. -/
theorem ready_watermark (s : StateStore) (files : FileTree) :
    (s.ready files).2.latch.watermark = s.latch.watermark := by
  cases hrows : s.ledger files with
  | ok rows => rw [Latch.watermark, (ready_eq hrows).2, Latch.watermark]
  | error e =>
    rw [ready, hrows]
    split <;> rfl

theorem ready_of_latched (h : s.latch.latched = true) : (s.ready files).2 = s := by
  rw [ready, if_pos h]

/-- Asking changes nothing unless the store latches. -/
theorem ready_same_or_latched (s : StateStore) (files : FileTree) :
    (s.ready files).2 = s ∨ (s.ready files).2.latch.latched = true := by
  rw [ready]
  split
  · exact .inl rfl
  · split
    · exact .inl rfl
    · next hunlatched _ rows hrows =>
      simp only [Latch.evaluate, if_neg hunlatched]
      split
      · exact .inr rfl
      · exact .inl rfl

/-- Asking again changes nothing. -/
theorem ready_ready (s : StateStore) (files : FileTree) :
    ((s.ready files).2.ready files).2 = (s.ready files).2 := by
  rcases ready_same_or_latched s files with hsame | hlatched
  · rw [hsame, hsame]
  · exact ready_of_latched hlatched

end StateStore

namespace Replay

/-- Whether a run has begun to consume. -/
def Phase.begun : Phase → Bool
  | starting => false
  | capturingWatermark => false
  | subscribing => false
  | consuming => true
  | closing => true
  | stopped => true

/-- Whether the next record is still to be applied. -/
def Stage.expects : Stage → Bool
  | checkingStop _ => true
  | polling _ => true
  | applying _ _ _ => true
  | resting _ => true
  | _ => false

namespace History

variable {s : Settings} {h : History}

/-! ## One request -/

theorem poll_store (w : Surroundings) (timeout : Nat) :
    (w.poll timeout).2.store = w.store ∧ (w.poll timeout).2.files = w.files := by
  rw [Surroundings.poll]
  split
  · exact ⟨rfl, rfl⟩
  · split <;> exact ⟨rfl, rfl⟩

/-- A record is applied, or the run ends. -/
theorem request_applying_cases (s : Settings) {framing : Framing} {place : Position}
    {change : Change} (hs : h.stage = .applying framing place change) :
    (∃ outcome, (h.request s).stage = .closing outcome) ∨
      ∃ framing place, (h.request s).stage = .recording framing place ∧
        h.applied.length < (h.request s).applied.length := by
  have hask : h.stage.ask? s =
      some ⟨.apply change, Stage.unlessState fun () => .recording framing place⟩ := by
    rw [hs]
    rfl
  cases hanswer : (h.world.answer (.apply change)).1 with
  | ok done =>
    right
    refine ⟨framing, place, by rw [stage_request hask, hanswer]; rfl, ?_⟩
    rw [request_applying hs hanswer, List.length_append]
    exact Nat.lt_succ_self _
  | error e =>
    left
    rw [stage_request hask, hanswer]
    exact ⟨_, rfl⟩

/-- A run that expects a record goes on doing so with the store as it was, or ends, or has applied
the record. -/
theorem request_expecting (s : Settings) (hs : h.stage.expects = true) :
    ((h.request s).stage.expects = true ∧ (h.request s).world.store = h.world.store ∧
        (h.request s).world.files = h.world.files) ∨
      (∃ outcome, (h.request s).stage = .closing outcome) ∨
      ∃ framing place, (h.request s).stage = .recording framing place ∧
        h.applied.length < (h.request s).applied.length := by
  cases hstage : h.stage with
  | checkingStop framing =>
    rw [request_checkingStop hstage]
    cases h.world.signal.flag with
    | true => exact .inr (.inl ⟨_, rfl⟩)
    | false => exact .inl ⟨rfl, rfl, rfl⟩
  | polling framing =>
    have hask : h.stage.ask? s = some ⟨.poll s.timing.poll, Stage.received s framing⟩ := by
      rw [hstage]
      rfl
    have hsame := poll_store h.world s.timing.poll
    rw [stage_request hask, world_request hask]
    cases (h.world.answer (.poll s.timing.poll)).1 with
    | record r =>
      change ((Stage.receive s framing r).expects = true ∧ _) ∨
        (∃ outcome, Stage.receive s framing r = .closing outcome) ∨ _
      rw [Stage.receive]
      split
      · exact .inl ⟨rfl, hsame⟩
      · exact .inr (.inl ⟨_, rfl⟩)
    | tail => exact .inl ⟨rfl, hsame⟩
    | failed e => exact .inr (.inl ⟨_, rfl⟩)
    | interrupted => exact .inr (.inl ⟨_, rfl⟩)
  | applying framing place change => exact .inr (request_applying_cases s hstage)
  | resting framing =>
    rcases request_resting (s := s) hstage with hrequest | hrequest
    · rw [hrequest]
      exact .inr (.inl ⟨_, rfl⟩)
    · rw [hrequest]
      exact .inl ⟨rfl, rfl, rfl⟩
  | _ =>
    rw [hstage] at hs
    cases hs

/-! ## Between two records -/

/-- Whether the store is ready is no news. -/
def Rested (h : History) : Prop := (h.world.store.ready h.world.files).2 = h.world.store

/-- What holds once a record has been applied: the store has been asked whether it is ready. -/
structure Calm (h : History) : Prop where
  begun : h.stage.phase.begun = true
  rested : h.stage.expects = true → h.Rested

theorem Calm.of_stage {stage : Stage} (hs : h.stage = stage) (hbegun : stage.phase.begun = true)
    (hexpects : stage.expects = false) : Calm h where
  begun := by rw [hs, hbegun]
  rested := by
    intro hexpecting
    rw [hs, hexpects] at hexpecting
    cases hexpecting

theorem Calm.request (hc : Calm h) (s : Settings) : Calm (h.request s) := by
  by_cases hexpects : h.stage.expects = true
  · rcases request_expecting s hexpects with
      ⟨hnext, hstore, hfiles⟩ | ⟨outcome, hnext⟩ | ⟨framing, place, hnext, -⟩
    · refine ⟨?_, fun _ => ?_⟩
      · revert hnext
        cases (h.request s).stage <;> simp [Stage.expects, Stage.phase, Phase.begun]
      · rw [Rested, hstore, hfiles]
        exact hc.rested hexpects
    · exact .of_stage hnext rfl rfl
    · exact .of_stage hnext rfl rfl
  have hbegun := hc.begun
  cases hs : h.stage with
  | recording framing place =>
    have hask : h.stage.ask? s =
        some ⟨.advance place, Stage.unlessState fun () => .checkingLatch framing⟩ := by
      rw [hs]
      rfl
    have hnext := stage_request hask
    cases hanswer : (h.world.answer (.advance place)).1 with
    | ok done =>
      rw [hanswer] at hnext
      exact .of_stage hnext rfl rfl
    | error e =>
      rw [hanswer] at hnext
      exact .of_stage hnext rfl rfl
  | checkingLatch framing =>
    rw [request_checkingLatch hs]
    cases hlatched : h.world.store.latch.latched with
    | true => exact ⟨rfl, fun _ => StateStore.ready_of_latched hlatched⟩
    | false => exact .of_stage rfl rfl rfl
  | evaluating framing =>
    have hask : h.stage.ask? s =
        some ⟨.ready, Stage.unlessState fun _ => .checkingStop framing⟩ := by
      rw [hs]
      rfl
    have hnext := stage_request hask
    have hrested : (h.request s).Rested := by
      rw [Rested, world_request hask]
      exact StateStore.ready_ready h.world.store h.world.files
    cases hanswer : (h.world.answer .ready).1 with
    | ok answer =>
      rw [hanswer] at hnext
      exact ⟨by rw [hnext]; rfl, fun _ => hrested⟩
    | error e =>
      rw [hanswer] at hnext
      exact ⟨by rw [hnext]; rfl, fun _ => hrested⟩
  | closing outcome =>
    rw [request_closing hs]
    exact .of_stage rfl rfl rfl
  | finished outcome =>
    rw [request_finished hs]
    exact hc
  | checkingStop framing => exact absurd (by rw [hs]; rfl) hexpects
  | polling framing => exact absurd (by rw [hs]; rfl) hexpects
  | applying framing place change => exact absurd (by rw [hs]; rfl) hexpects
  | resting framing => exact absurd (by rw [hs]; rfl) hexpects
  | _ =>
    rw [hs] at hbegun
    cases hbegun

/-- A run that has applied a record has begun to consume, and is calm from then on. -/
theorem calm_after (hcalm : h.applied = [] ∨ Calm h) {e : Event} (he : e.InRun) :
    (h.after s e).applied = [] ∨ Calm (h.after s e) := by
  cases e with
  | request =>
    rcases hcalm with hempty | hcalm
    · cases hhand : h.stage.atHand? with
      | none => exact .inl ((applied_request s hhand).trans hempty)
      | some change =>
        obtain ⟨framing, place, hs⟩ := Stage.atHand?_eq_some hhand
        right
        rcases request_applying_cases s hs with ⟨outcome, hnext⟩ | ⟨framing, place, hnext, -⟩
        · exact .of_stage hnext rfl rfl
        · exact .of_stage hnext rfl rfl
    · exact .inr (hcalm.request s)
  | change c => exact hcalm.imp_right fun hc => ⟨hc.begun, hc.rested⟩
  | stop kind => exact hcalm.imp_right fun hc => ⟨hc.begun, hc.rested⟩
  | ask =>
    exact hcalm.imp_right fun hc =>
      ⟨hc.begun, fun _ => StateStore.ready_ready h.world.store h.world.files⟩
  | restart latch => exact he.elim

theorem calm_run (hempty : h.applied = []) (events : List Event) (hrun : ∀ e ∈ events, e.InRun) :
    (h.run s events).applied = [] ∨ Calm (h.run s events) := by
  induction events using List.reverseRecOn with
  | nil => exact .inl hempty
  | append_singleton events e ih =>
    rw [run_concat]
    exact calm_after (ih fun e' he' => hrun e' (List.mem_append_left _ he'))
      (hrun e (List.mem_append_right _ List.mem_cons_self))

/-! ## Until the next record is polled -/

/-- The store is as it was at an earlier moment, or as somebody left it who asked whether it is
ready. -/
structure Alike (asked : Prop) (earlier h : History) : Prop where
  files : h.world.files = earlier.world.files
  store : h.world.store = earlier.world.store ∨
    asked ∧ h.world.store = (earlier.world.store.ready earlier.world.files).2

/-- A run that still expects the record it expected at an earlier moment, or that ends. -/
def Waits (asked : Prop) (earlier h : History) : Prop :=
  (h.stage.expects = true ∧ Alike asked earlier h) ∨
    (∃ outcome, h.stage = .closing outcome) ∨ ∃ outcome, h.stage = .finished outcome

variable {asked : Prop} {earlier : History}

theorem Alike.congr (ha : Alike asked earlier h) {h' : History}
    (hstore : h'.world.store = h.world.store) (hfiles : h'.world.files = h.world.files) :
    Alike asked earlier h' :=
  ⟨hfiles.trans ha.files, by rw [hstore]; exact ha.store⟩

theorem Alike.ask (ha : Alike asked earlier h) (hasked : asked) :
    Alike asked earlier (h.after s .ask) := by
  refine ⟨ha.files, .inr ⟨hasked, ?_⟩⟩
  change (h.world.store.ready h.world.files).2 = _
  rw [ha.files]
  rcases ha.store with hsame | ⟨-, hready⟩
  · rw [hsame]
  · rw [hready, StateStore.ready_ready]

theorem length_applied_after (s : Settings) (h : History) (e : Event) :
    h.applied.length ≤ (h.after s e).applied.length := by
  cases e with
  | request =>
    simp only [after, request]
    split
    · rw [List.length_append]
      exact Nat.le_add_right _ _
    · exact Nat.le_refl _
  | _ => exact Nat.le_refl _

theorem length_applied_run (s : Settings) (h : History) (events : List Event) :
    h.applied.length ≤ (h.run s events).applied.length := by
  induction events using List.reverseRecOn with
  | nil => exact Nat.le_refl _
  | append_singleton events e ih =>
    rw [run_concat]
    exact Nat.le_trans ih (length_applied_after s _ e)

theorem Waits.after (hw : Waits asked earlier h) {e : Event} (he : e.InRun)
    (hask : e = .ask → asked) :
    h.applied.length < (h.after s e).applied.length ∨ Waits asked earlier (h.after s e) := by
  cases e with
  | request =>
    rcases hw with ⟨hexpects, ha⟩ | ⟨outcome, hs⟩ | ⟨outcome, hs⟩
    · rcases request_expecting s hexpects with
        ⟨hnext, hstore, hfiles⟩ | hclosing | ⟨framing, place, -, hlonger⟩
      · exact .inr (.inl ⟨hnext, ha.congr hstore hfiles⟩)
      · exact .inr (.inr (.inl hclosing))
      · exact .inl hlonger
    · exact .inr (.inr (.inr ⟨outcome, by rw [History.after, request_closing hs]⟩))
    · exact .inr (.inr (.inr ⟨outcome, by rw [History.after, request_finished hs, hs]⟩))
  | change c => exact .inr (hw.imp_left fun hw => ⟨hw.1, hw.2.congr rfl rfl⟩)
  | stop kind => exact .inr (hw.imp_left fun hw => ⟨hw.1, hw.2.congr rfl rfl⟩)
  | ask => exact .inr (hw.imp_left fun hw => ⟨hw.1, hw.2.ask (hask rfl)⟩)
  | restart latch => exact he.elim

/-- As long as no record is applied, the run waits for the next one. -/
theorem waits_run (hexpects : h.stage.expects = true) (events : List Event)
    (hrun : ∀ e ∈ events, e.InRun) (hask : .ask ∈ events → asked) :
    h.applied.length < (h.run s events).applied.length ∨
      Waits asked h (h.run s events) := by
  induction events using List.reverseRecOn with
  | nil => exact .inr (.inl ⟨hexpects, rfl, .inl rfl⟩)
  | append_singleton events e ih =>
    have hlast : e ∈ events ++ [e] := List.mem_append_right _ List.mem_cons_self
    have hbefore := ih (fun e' he' => hrun e' (List.mem_append_left _ he'))
      fun hmem => hask (List.mem_append_left _ hmem)
    rw [run_concat]
    rcases hbefore with hlonger | hwaits
    · exact .inl (Nat.lt_of_lt_of_le hlonger (length_applied_after s _ e))
    · exact (hwaits.after (hrun e hlast) fun he => hask (he ▸ hlast)).imp_left fun hlonger =>
        Nat.lt_of_le_of_lt (length_applied_run s h events) hlonger

/-! ## Behind the record that does not decode -/

/-- A run that ends with a failure, nothing having been applied since an earlier moment. -/
structure Fails (asked : Prop) (earlier : History) (fault : ReplayError) (h : History) : Prop where
  stage : h.stage = .closing (.error fault) ∨
    h.stage = .finished (.error fault) ∧ h.world.consumer.closed = true
  alike : Alike asked earlier h
  applied : h.applied = earlier.applied

theorem Fails.after {fault : ReplayError} (hf : Fails asked earlier fault h) {e : Event}
    (he : e.InRun) (hask : e = .ask → asked) : Fails asked earlier fault (h.after s e) := by
  cases e with
  | request =>
    rcases hf.stage with hs | hs
    · rw [History.after, request_closing hs]
      exact ⟨.inr ⟨rfl, rfl⟩, hf.alike.congr rfl rfl, hf.applied⟩
    · rw [History.after, request_finished hs.1]
      exact hf
  | change c => exact ⟨hf.stage, hf.alike.congr rfl rfl, hf.applied⟩
  | stop kind => exact ⟨hf.stage, hf.alike.congr rfl rfl, hf.applied⟩
  | ask => exact ⟨hf.stage, hf.alike.ask (hask rfl), hf.applied⟩
  | restart latch => exact he.elim

/-- After one more request the run is finished. -/
theorem Fails.run {fault : ReplayError} (hf : Fails asked earlier fault h) (events : List Event)
    (hrun : ∀ e ∈ events, e.InRun) (hask : .ask ∈ events → asked) :
    Fails asked earlier fault (h.run s events) ∧
      (.request ∈ events → (h.run s events).stage = .finished (.error fault) ∧
        (h.run s events).world.consumer.closed = true) := by
  induction events using List.reverseRecOn with
  | nil => exact ⟨hf, nofun⟩
  | append_singleton events e ih =>
    have hlast : e ∈ events ++ [e] := List.mem_append_right _ List.mem_cons_self
    obtain ⟨hf', hfinished⟩ := ih (fun e' he' => hrun e' (List.mem_append_left _ he'))
      fun hmem => hask (List.mem_append_left _ hmem)
    rw [run_concat]
    refine ⟨hf'.after (hrun e hlast) fun he => hask (he ▸ hlast), fun hmem => ?_⟩
    rw [List.mem_append, List.mem_singleton] at hmem
    rcases hmem with hmem | rfl
    · obtain ⟨hs, hclosed⟩ := hfinished hmem
      cases e with
      | request =>
        rw [History.after, request_finished hs]
        exact ⟨hs, hclosed⟩
      | restart latch => exact (hrun _ hlast).elim
      | _ => exact ⟨hs, hclosed⟩
    · rcases hf'.stage with hs | hs
      · rw [History.after, request_closing hs]
        exact ⟨rfl, rfl⟩
      · rw [History.after, request_finished hs.1]
        exact hs

/-- A poll that delivers a record that does not decode. -/
theorem request_undecodable {framing : Framing} (hs : h.stage = .polling framing) {r : Record}
    (hpoll : (h.world.poll s.timing.poll).1 = .record r) {fault : ReplayError}
    (hdecode : Decoder.decode ⟨s.envelope, framing⟩ r = .error fault) :
    (h.request s).stage = .closing (.error fault) ∧ (h.request s).world.store = h.world.store ∧
      (h.request s).world.files = h.world.files ∧ (h.request s).applied = h.applied := by
  have hask : h.stage.ask? s = some ⟨.poll s.timing.poll, Stage.received s framing⟩ := by
    rw [hs]
    rfl
  have hanswer : (h.world.answer (.poll s.timing.poll)).1 = .record r := hpoll
  have hnext : Stage.received s framing (.record r) = .closing (.error fault) := by
    change Stage.receive s framing r = _
    rw [Stage.receive, hdecode]
  refine ⟨?_, ?_, ?_, applied_request s (by rw [hs]; rfl)⟩
  · rw [stage_request hask, hanswer]
    exact hnext
  · rw [world_request hask]
    exact (poll_store h.world s.timing.poll).1
  · rw [world_request hask]
    exact (poll_store h.world s.timing.poll).2

/-- What can be seen of a store is as it was at an earlier moment; but if nothing had been applied
by then, the latch may have latched for somebody who asked. -/
structure Traceless (asked : Prop) (earlier h : History) : Prop where
  values : ∀ key, h.world.store.get? h.world.files key =
    earlier.world.store.get? earlier.world.files key
  ledger : h.world.store.ledger h.world.files = earlier.world.store.ledger earlier.world.files
  watermark : h.world.store.latch.watermark = earlier.world.store.latch.watermark
  latch : earlier.applied ≠ [] ∨ ¬ asked → h.world.store.latch = earlier.world.store.latch
  applied : h.applied = earlier.applied

theorem Alike.traceless (ha : Alike asked earlier h) (happlied : h.applied = earlier.applied)
    (hrested : earlier.applied ≠ [] → earlier.Rested) : Traceless asked earlier h := by
  have hbacking : h.world.store.backing = earlier.world.store.backing := by
    rcases ha.store with hsame | ⟨-, hready⟩
    · rw [hsame]
    · rw [hready, StateStore.ready_backing]
  refine ⟨fun key => ?_, ?_, ?_, fun hcase => ?_, happlied⟩
  · rw [ha.files, StateStore.get?_of_backing hbacking]
  · rw [ha.files, StateStore.ledger_of_backing hbacking]
  · rcases ha.store with hsame | ⟨-, hready⟩
    · rw [hsame]
    · rw [hready, StateStore.ready_watermark]
  · rcases ha.store with hsame | ⟨hasked, hready⟩
    · rw [hsame]
    · rw [hready, hrested (hcase.resolve_right fun hnot => hnot hasked)]

/-- Let a run be about to look for the next record, and let that be one that does not decode. The
run fails, and the failure tells which part of which record cannot be read. As soon as it has closed
its consumer the run is stopped. Whatever others do meanwhile, nothing is applied any more, and the
values, the ledger, the watermark and the latch are what they were before the record, but that the
latch may have latched for somebody who asked before any record was applied. -/
theorem undecodable_stops (s : Settings) (log : Log) (store : StateStore) (files : FileTree)
    (subjects : Option (Except BrokerError (List String))) (past between rest : List Event)
    (hrun : ∀ e ∈ past ++ between ++ rest, e.InRun) (hrequest : .request ∈ rest) :
    let earlier := (start log store files subjects).run s past
    let polling := earlier.run s between
    let h := (polling.request s).run s rest
    ∀ framing framing' r fault, earlier.stage = .checkingStop framing →
      polling.stage = .polling framing' → polling.applied = earlier.applied →
      (polling.world.poll s.timing.poll).1 = .record r →
      Decoder.decode ⟨s.envelope, framing'⟩ r = .error fault →
        h.stage = .finished (.error fault) ∧ h.stage.phase = .stopped ∧
        h.world.consumer.closed = true ∧ Traceless (.ask ∈ between ++ rest) earlier h ∧
        (Decoder.Unreadable s.envelope .key r.place framing'.key r.key fault ∨
          (∀ other, ¬ Decoder.Unreadable s.envelope .key r.place framing'.key r.key other) ∧
            ∃ value ∈ r.value,
              Decoder.Unreadable s.envelope .value r.place framing'.value value fault) := by
  intro earlier polling h framing framing' r fault hearlier hpolling happlied hpoll hdecode
  have hexpects : earlier.stage.expects = true := by rw [hearlier]; rfl
  have hrested : earlier.applied ≠ [] → earlier.Rested := by
    intro hne
    have hcalm := (calm_run (s := s) (h := start log store files subjects) rfl past
      fun e he => hrun e (by simp [he])).resolve_left hne
    exact hcalm.rested hexpects
  have halike : Alike (.ask ∈ between ++ rest) earlier polling := by
    have hwaits : earlier.applied.length < polling.applied.length ∨
        Waits (.ask ∈ between ++ rest) earlier polling :=
      waits_run hexpects between (fun e he => hrun e (by simp [he]))
        fun hmem => List.mem_append_left _ hmem
    rcases hwaits with hlonger | ⟨-, ha⟩ | ⟨outcome, hs⟩ | ⟨outcome, hs⟩
    · rw [← happlied] at hlonger
      exact absurd hlonger (Nat.lt_irrefl _)
    · exact ha
    · cases hpolling.symm.trans hs
    · cases hpolling.symm.trans hs
  obtain ⟨hclosing, hstore, hfiles, hsame⟩ := request_undecodable hpolling hpoll hdecode
  have hfails : Fails (.ask ∈ between ++ rest) earlier fault (polling.request s) :=
    ⟨.inl hclosing, halike.congr hstore hfiles, hsame.trans happlied⟩
  obtain ⟨hend, hfinished⟩ := hfails.run (s := s) rest (fun e he => hrun e (by simp [he]))
    fun hmem => List.mem_append_right _ hmem
  obtain ⟨hstage, hclosed⟩ := hfinished hrequest
  refine ⟨hstage, ?_, hclosed, hend.alike.traceless hend.applied hrested,
    Decoder.decode_eq_error_iff.mp hdecode⟩
  rw [show h.stage = _ from hstage]
  rfl

def framed : Settings := ⟨"kv", .disabled, true, {}⟩

/-- The values of a topic carry frames, but the second is too short for one. A tombstone follows. -/
def crampedChanges : List LogChange :=
  [.append "kv" ⟨[1], some [0, 0, 0, 0, 1, 10], []⟩, .append "kv" ⟨[2], some [20], []⟩,
    .append "kv" ⟨[1], none, []⟩]

/-- A run has applied the first record. -/
def cramped : History :=
  (start ((Log.empty 1).changeAll crampedChanges) .openDict [] (some (.ok ["kv-value"]))).run
    framed (List.replicate 16 .request)

/-- It polls the second, and somebody asks before and after whether the store is ready. -/
def crampedEnd : History :=
  ((cramped.run framed [.request, .ask]).request framed).run framed [.ask, .request, .request]

theorem undecodable_stops_cramped :
    crampedEnd.stage = .finished (.error (.frame .value ⟨"kv", 0, 1⟩)) ∧
      crampedEnd.world.consumer.closed = true ∧
      crampedEnd.applied.map Prod.fst = [⟨"kv", 0, 0⟩] ∧
      crampedEnd.world.store.get? crampedEnd.world.files [1] = .ok (some ⟨[10], ""⟩) ∧
      crampedEnd.world.store.ledger crampedEnd.world.files = .ok [⟨"kv", 0, 0⟩] ∧
      crampedEnd.world.store.latch = cramped.world.store.latch := by
  have hearlier : cramped.stage = .checkingStop ⟨false, true⟩ := by cbv
  have hpolling : (cramped.run framed [.request, .ask]).stage = .polling ⟨false, true⟩ := by cbv
  have happlied : cramped.applied = [(⟨"kv", 0, 0⟩, ⟨[1], some [10], ""⟩)] := by cbv
  have hsame : (cramped.run framed [.request, .ask]).applied = cramped.applied := by cbv
  have hpoll : ((cramped.run framed [.request, .ask]).world.poll framed.timing.poll).1 =
      .record ⟨"kv", 0, 1, [2], some [20], []⟩ := by cbv
  obtain ⟨hstage, -, hclosed, htraceless, -⟩ := undecodable_stops framed
    ((Log.empty 1).changeAll crampedChanges) .openDict [] (some (.ok ["kv-value"]))
    (List.replicate 16 .request) [.request, .ask] [.ask, .request, .request]
    (by simp [Event.InRun]) (by simp) _ _ _ (.frame .value ⟨"kv", 0, 1⟩) hearlier hpolling hsame
    hpoll (by decide)
  rw [← cramped, ← crampedEnd] at hstage hclosed htraceless
  refine ⟨hstage, hclosed, ?_, ?_, ?_, htraceless.latch (.inl ?_)⟩
  · rw [htraceless.applied, happlied]
    rfl
  · rw [htraceless.values]
    cbv
  · rw [htraceless.ledger]
    cbv
  · rw [happlied]
    exact List.cons_ne_nil _ _

end History

end Replay

end KeyedLog
