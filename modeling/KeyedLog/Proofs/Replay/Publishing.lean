import KeyedLog.Proofs.Log.Carrying
import KeyedLog.Proofs.Replay.Resuming
import KeyedLog.Supply

/-!
# From a publisher to a store

What is published and what runs that replay it do may go in any order. A store shows for each key
the last change of it that was applied. That is the last message that was accepted if the records
of the key all lie in one partition, as they do unless keys are sealed: a sealed key selects its
partition anew each time.
-/
namespace KeyedLog.Replay

/-! ## The last change applied -/

/-- Only the stage with a change at hand changes values. -/
theorem Stage.get?_contents {stage : Stage} (h : stage.atHand? = none) (m : Contents) :
    (stage.contents m).get? = m.get? := by
  cases stage with
  | applying framing place change => cases h
  | seeding framing partitions ledger noted seed todo => rfl
  | recording framing place => rfl
  | _ => rfl

namespace History

/-- Contents show for each key the last change that was applied. -/
def Follows (h : History) (m : Contents) : Prop :=
  ∀ key, m.get? key = (Change.last? key (h.applied.map Prod.snd)).bind Change.stored?

variable {x : Setup} {h : History} {m : Contents}

theorem Follows.request (hf : Follows h m) (ht : Tracks x h m) (hsteady : h.Steady)
    (hhomed : x.Homed h.log) (hsized : x.root.isSome → h.Sized x.topic) :
    Follows (h.request x.settings) (h.stage.contents m) := by
  intro key
  cases hhand : h.stage.atHand? with
  | none =>
    rw [applied_request x.settings hhand, Stage.get?_contents hhand]
    exact hf key
  | some change =>
    obtain ⟨framing, place, hs⟩ := Stage.atHand?_eq_some hhand
    obtain ⟨hok, -⟩ := ht.apply hsteady hhomed hsized hs
    rw [History.request_applying hs hok, hs]
    simp only [Stage.contents, List.map_append, List.map_cons, List.map_nil, Contents.get?_apply,
      Change.last?_concat]
    by_cases hkey : change.key = key
    · rw [if_pos hkey.symm, if_pos hkey]
      rfl
    · rw [if_neg (Ne.symm hkey), if_neg hkey]
      exact hf key

theorem Follows.after (hf : Follows h m) (ht : Tracks x h m) (hsteady : h.Steady)
    (hhomed : x.Homed h.log) (hsized : x.root.isSome → h.Sized x.topic) (e : Event) :
    Follows (h.after x.settings e) (h.contentsAfter e m) := by
  cases e with
  | request => exact hf.request ht hsteady hhomed hsized
  | change c => exact hf
  | stop kind => exact hf
  | ask => exact hf
  | restart latch => exact hf

theorem Follows.start (log : Log) (store : StateStore) (files : FileTree)
    (subjects : Option (Except BrokerError (List String))) :
    Follows (start log store files subjects) {} := by
  intro key
  rw [Contents.get?_empty]
  rfl

/-- A store that was empty at first shows for each key the last change that was applied. -/
theorem get?_eq_last (s : Settings) {log : Log} (hlog : log.Sound) {store : StateStore}
    {files : FileTree} (hfresh : store.Fresh files)
    (subjects : Option (Except BrokerError (List String))) (events : List Event)
    (hsized : store.root?.isSome →
      ((start log store files subjects).run s events).Sized s.topic) (key : Bytes) :
    let h := (start log store files subjects).run s events
    h.world.store.get? h.world.files key =
      .ok ((Change.last? key (h.applied.map Prod.snd)).bind Change.stored?) := by
  intro h
  obtain ⟨m, ht, hfollows⟩ := (Tracks.start (x := ⟨s, subjects, store.root?, fun _ => none⟩) hlog
    hfresh rfl).run_and (Follows.start log store files subjects)
    (Steady.start hlog store files subjects) events (.inr fun _ => rfl)
    (fun _ _ _ _ _ _ hj => by cases hj) hsized
    fun h' m' e _ ht' hsteady hhomed hsized' hf => hf.after ht' hsteady hhomed hsized' e
  rw [ht.holds.get? key, hfollows key]

end History

/-! ## Messages and events -/

/-- What happens: a message is published with the initial blocks that are drawn for it, as far as
there are any, the publisher is shut down, or there is some other event. -/
inductive Act where
  | publish (m : Message) (blocks : Nat → Aes.Draw)
  | shutdown
  | event (e : History.Event)

/-- Whether an act writes to a topic only by way of the publisher. -/
def Act.Spares (topic : String) : Act → Prop
  | .event e => e.Spares topic
  | _ => True

/-- A publisher beside a history, and the messages it has accepted. -/
structure Traffic where
  history : History
  publisher : Publisher
  accepted : List Message := []

namespace Traffic

def start (s : Settings) (n : Int) (store : StateStore) (files : FileTree)
    (subjects : Option (Except BrokerError (List String))) : Traffic where
  history := .start (.empty n) store files subjects
  publisher := { topic := s.topic, envelope := s.envelope }

def after (s : Settings) (t : Traffic) : Act → Traffic
  | .publish m blocks =>
    match t.publisher.publish t.history.log blocks m with
    | .ok log =>
      { t with
        history := { t.history with world := t.history.world.setLog log }
        accepted := t.accepted ++ [m] }
    | .error _ => t
  | .shutdown => { t with publisher := t.publisher.shutdown.2 }
  | .event e => { t with history := t.history.after s e }

def run (s : Settings) (t : Traffic) (acts : List Act) : Traffic := acts.foldl (after s) t

variable {s : Settings} {t : Traffic}

theorem run_concat (s : Settings) (t : Traffic) (acts : List Act) (a : Act) :
    t.run s (acts ++ [a]) = (t.run s acts).after s a := by
  rw [run, List.foldl_concat]
  rfl

/-- A message is accepted with its record appended, or nothing happens. -/
theorem after_publish (s : Settings) (t : Traffic) (m : Message) (blocks : Nat → Aes.Draw) :
    t.after s (.publish m blocks) = t ∨
      ∃ o, m.sealWith t.publisher.envelope blocks = .ok o ∧
        t.after s (.publish m blocks) = { t with
          history := t.history.after s (.change (.append t.publisher.topic o))
          accepted := t.accepted ++ [m] } := by
  rw [after]
  split
  · next log hpublish =>
    obtain ⟨o, hsealed, rfl⟩ := Publisher.publish_eq_ok hpublish
    exact .inr ⟨o, hsealed, rfl⟩
  · exact .inl rfl

/-- A publisher that is up accepts what can be sealed, unless sends are refused. -/
theorem after_publish_of_ok (s : Settings) {m : Message} {blocks : Nat → Aes.Draw} {o : Outgoing}
    (hup : t.publisher.down = false) (hlog : t.history.log.rejecting = false)
    (hsealed : m.sealWith t.publisher.envelope blocks = .ok o) :
    t.after s (.publish m blocks) = { t with
      history := t.history.after s (.change (.append t.publisher.topic o))
      accepted := t.accepted ++ [m] } := by
  simp only [after, Publisher.publish, hup, Bool.false_eq_true, if_false, hsealed, Log.send, hlog]
  rfl

/-- To a history, an act is some events. -/
theorem history_after (s : Settings) (t : Traffic) (a : Act) :
    ∃ events, (t.after s a).history = t.history.run s events ∧
      (a.Spares s.topic → ∀ e ∈ events, e.Retains s.topic) := by
  cases a with
  | publish m blocks =>
    rcases after_publish s t m blocks with hsame | ⟨o, -, hafter⟩
    · exact ⟨[], by rw [hsame]; rfl, fun _ => nofun⟩
    · refine ⟨[.change (.append t.publisher.topic o)], by rw [hafter]; rfl, fun _ e he => ?_⟩
      rw [List.mem_singleton.mp he]
      trivial
  | shutdown => exact ⟨[], rfl, fun _ => nofun⟩
  | event e =>
    refine ⟨[e], rfl, fun hspares e' he => ?_⟩
    rw [List.mem_singleton.mp he]
    exact History.Event.Spares.retains hspares

theorem history_run (s : Settings) (t : Traffic) (acts : List Act)
    (hspares : ∀ a ∈ acts, a.Spares s.topic) :
    ∃ events, (t.run s acts).history = t.history.run s events ∧
      ∀ e ∈ events, e.Retains s.topic := by
  induction acts using List.reverseRecOn with
  | nil => exact ⟨[], rfl, nofun⟩
  | append_singleton acts a ih =>
    obtain ⟨events, hrun, hretains⟩ := ih fun a ha => hspares a (List.mem_append_left _ ha)
    obtain ⟨more, hafter, hretains'⟩ := history_after s (t.run s acts) a
    refine ⟨events ++ more, ?_, fun e he => ?_⟩
    · rw [run_concat, hafter, hrun, History.run, History.run, History.run, List.foldl_append]
    · rw [List.mem_append] at he
      cases he with
      | inl he => exact hretains e he
      | inr he => exact hretains' (hspares a (List.mem_append_right _ List.mem_cons_self)) e he

/-- The log carries the messages that were accepted, sealed with the envelope of the runs. -/
structure Sends (s : Settings) (t : Traffic) (posted : List Record) : Prop where
  topic : t.publisher.topic = s.topic
  envelope : t.publisher.envelope = s.envelope
  carries : t.history.log.Carries ⟨s.envelope, {}⟩ s.topic posted t.accepted

theorem Sends.after {posted : List Record} (hs : Sends s t posted) (hsteady : t.history.Steady)
    {a : Act} (hspares : a.Spares s.topic) : ∃ posted', Sends s (t.after s a) posted' := by
  obtain ⟨htopic, henvelope, hcarries⟩ := hs
  cases a with
  | publish m blocks =>
    rcases after_publish s t m blocks with hsame | ⟨o, hsealed, hafter⟩
    · rw [hsame]
      exact ⟨posted, htopic, henvelope, hcarries⟩
    · rw [hafter, htopic]
      rw [henvelope] at hsealed
      refine ⟨_, htopic, henvelope, hcarries.append hsteady.sound
        ⟨Decoder.correlation s.envelope o.headers, ?_⟩⟩
      exact Message.decode_of_sealWith hsealed _ _ _
  | shutdown =>
    have hsame : t.publisher.shutdown.2.topic = t.publisher.topic ∧
        t.publisher.shutdown.2.envelope = t.publisher.envelope := by
      rw [Publisher.shutdown]
      split <;> exact ⟨rfl, rfl⟩
    exact ⟨posted, hsame.1.trans htopic, hsame.2.trans henvelope, hcarries⟩
  | event e =>
    refine ⟨posted, htopic, henvelope, ?_⟩
    rcases (History.log_after (s := s) hsteady.due e).2 with hlog | ⟨c, hlog, hc⟩
    · rw [Traffic.after, hlog]
      exact hcarries
    · rw [Traffic.after, hlog]
      exact hcarries.change hsteady.sound ((hc _).2 hspares)

theorem Sends.run {posted : List Record} (hs : Sends s t posted) (hsteady : t.history.Steady)
    (acts : List Act) (hspares : ∀ a ∈ acts, a.Spares s.topic) :
    ∃ posted', Sends s (t.run s acts) posted' := by
  induction acts using List.reverseRecOn with
  | nil => exact ⟨posted, hs⟩
  | append_singleton acts a ih =>
    have hbefore := fun a ha => hspares a (List.mem_append_left _ ha)
    obtain ⟨posted', hs'⟩ := ih hbefore
    obtain ⟨events, hrun, -⟩ := history_run s t acts hbefore
    have hsteady' : (t.run s acts).history.Steady := by
      rw [hrun]
      exact hsteady.run events
    rw [run_concat]
    exact hs'.after hsteady' (hspares a (List.mem_append_right _ List.mem_cons_self))

theorem Sends.mem_records {posted : List Record} (hs : Sends s t posted) {i : Int} {r : Record} :
    r ∈ t.history.log.records s.topic i ↔ r ∈ posted ∧ r.partition = i := by
  rw [Log.records_eq, hs.carries.records i, List.mem_filter, decide_eq_true_iff]

/-- Unless keys are sealed, or with a single partition, the records of a key are kept in one. -/
theorem Sends.keptIn {posted : List Record} (hs : Sends s t posted)
    (h : s.envelope = .disabled ∨ (t.history.log.partitionNumbers s.topic).length = 1)
    (key : Bytes) : ∃ i, History.KeptIn ⟨s.envelope, {}⟩ t.history.log s.topic key i := by
  cases h with
  | inl hdisabled =>
    have hcarries := hs.carries
    rw [hdisabled] at hcarries ⊢
    refine ⟨Log.partitionFor key (t.history.log.width s.topic), fun j r hr c hdecode hkey => ?_⟩
    obtain ⟨hmem, rfl⟩ := hs.mem_records.mp hr
    exact hcarries.kept_of_disabled key r hmem c hdecode hkey
  | inr hsingle =>
    refine ⟨0, fun j r hr c _ _ => ?_⟩
    obtain ⟨hmem, rfl⟩ := hs.mem_records.mp hr
    have hexist := hs.carries.there (List.ne_nil_of_mem hmem)
    exact hs.carries.kept_of_single ((Log.width_of_exists hexist).trans hsingle) r hmem

/-- Let messages be published in any order with runs on a store that was empty at first, each run
cut off wherever, while nobody else writes to the topic. Once a run has nothing left to apply, the
store shows for each key the last change of it that was applied. Unless keys are sealed, or with a
single partition, or where the records of the key happen to lie in one, that has the value of the
last message for the key that was accepted, or no value if that removes it or there is none. -/
theorem last_accepted_shows (s : Settings) (hregistry : s.registry = false) (n : Int)
    {store : StateStore} {files : FileTree} (hfresh : store.Fresh files)
    (subjects : Option (Except BrokerError (List String))) (acts : List Act)
    (hspares : ∀ a ∈ acts, a.Spares s.topic)
    (hsized : store.root?.isSome →
      ((start s n store files subjects).run s acts).history.Sized s.topic) :
    let t := (start s n store files subjects).run s acts
    t.history.CaughtUp → ∀ key, ∃ shown,
      t.history.world.store.get? t.history.world.files key = .ok shown ∧
      shown = (Change.last? key (t.history.applied.map Prod.snd)).bind Change.stored? ∧
      (s.envelope = .disabled ∨ (t.history.log.partitionNumbers s.topic).length = 1 ∨
          (∃ i, History.KeptIn ⟨s.envelope, {}⟩ t.history.log s.topic key i) →
        shown.map StoredValue.value = Message.lastValue? key t.accepted) := by
  intro t hcaught key
  have hlog : (Log.empty n).Sound := Log.sound_empty n
  have hstart := History.Steady.start hlog store files subjects
  have hdecoder : s.decoder subjects = ⟨s.envelope, {}⟩ := by
    simp [Settings.decoder, Settings.framing, hregistry]
  obtain ⟨posted, hsends⟩ := Sends.run (t := start s n store files subjects)
    ⟨rfl, rfl, Log.Carries.empty _ _ n⟩ hstart acts hspares
  have hsends : Sends s t posted := hsends
  obtain ⟨events, hrun, hretains⟩ := history_run s (start s n store files subjects) acts hspares
  have hhistory : t.history = (History.start (.empty n) store files subjects).run s events := hrun
  rw [hrun] at hsized
  have hshown : t.history.world.store.get? t.history.world.files key =
      .ok ((Change.last? key (t.history.applied.map Prod.snd)).bind Change.stored?) := by
    rw [hhistory]
    exact History.get?_eq_last s hlog hfresh subjects events hsized key
  refine ⟨_, hshown, rfl, fun hkept => ?_⟩
  have hkept' : ∃ i, History.KeptIn ⟨s.envelope, {}⟩ t.history.log s.topic key i := by
    rcases hkept with hdisabled | hsingle | hkept
    · exact hsends.keptIn (.inl hdisabled) key
    · exact hsends.keptIn (.inr hsingle) key
    · exact hkept
  obtain ⟨i, hi⟩ := hkept'
  have hstored : t.history.world.store.get? t.history.world.files key =
      .ok (Decoder.lastStored? ⟨s.envelope, {}⟩ key (t.history.log.slot s.topic i).records) := by
    rw [hhistory] at hcaught hi ⊢
    rw [← hdecoder] at hi ⊢
    exact History.get?_of_keptIn s hlog hfresh subjects events hretains hsized hcaught hi
  rw [Except.ok.inj (hshown.symm.trans hstored)]
  exact hsends.carries.lastStored?_eq fun r hr c hdecode hkey =>
    hi r.partition r (hsends.mem_records.mpr ⟨hr, rfl⟩) c hdecode hkey

/-- Two keys in two partitions: one is written again and one removed while a run is under way. -/
def plainActs : List Act :=
  [.publish ⟨[1], some [10], [], "a"⟩ Supply.serial.blocks,
    .publish ⟨[2], some [11], [], "b"⟩ Supply.serial.blocks] ++
  List.replicate 20 (.event .request) ++
  [.publish ⟨[1], some [12], [], "c"⟩ Supply.serial.blocks,
    .publish ⟨[2], none, [], "d"⟩ Supply.serial.blocks] ++
  List.replicate 11 (.event .request)

def plain : Traffic :=
  (start ⟨"kv", .disabled, false, {}⟩ 2 .openDict [] none).run ⟨"kv", .disabled, false, {}⟩
    plainActs

theorem last_accepted_shows_plain :
    plain.history.CaughtUp ∧
      (∃ shown, plain.history.world.store.get? plain.history.world.files [1] = .ok shown ∧
        shown.map StoredValue.value = some [12]) ∧
      ∃ shown, plain.history.world.store.get? plain.history.world.files [2] = .ok shown ∧
        shown.map StoredValue.value = none := by
  have hshows := last_accepted_shows ⟨"kv", .disabled, false, {}⟩ rfl 2
    (show StateStore.openDict.Fresh [] from rfl) none plainActs
    (by simp [plainActs, or_imp, forall_and, Act.Spares, History.Event.Spares]) nofun
  rw [← plain] at hshows
  have hcaught : plain.history.CaughtUp := ⟨by cbv, by cbv, by cbv⟩
  obtain ⟨one, hone, -, hlast⟩ := hshows hcaught [1]
  obtain ⟨two, htwo, -, hlast'⟩ := hshows hcaught [2]
  refine ⟨hcaught, ⟨one, hone, ?_⟩, two, htwo, ?_⟩
  · rw [hlast (.inl rfl)]
    cbv
  · rw [hlast' (.inl rfl)]
    cbv

/-! ## Sealed keys and two partitions -/

theorem run_events (s : Settings) (t : Traffic) (events : List History.Event) :
    t.run s (events.map .event) = { t with history := t.history.run s events } := by
  induction events generalizing t with
  | nil => rfl
  | cons e rest ih => exact ih _

/-- A key that is all zeros. -/
def zeroKey : Aes.Key :=
  let zero : Aes.Block := ⟨⟨0, 0, 0, 0⟩, ⟨0, 0, 0, 0⟩, ⟨0, 0, 0, 0⟩, ⟨0, 0, 0, 0⟩⟩
  ⟨zero, zero⟩

def sealing : Settings := ⟨"kv", .enabled zeroKey, false, {}⟩

/-- A part of a record, sealed after the initial block with a serial number. -/
def sealedPart (serial : Nat) (plain : Bytes) : Bytes :=
  (zeroKey.encrypt (.ok (.serial serial)) plain).toOption.getD []

/-- A key is written, which goes to partition 1, and removed, which goes to partition 0. -/
def writing : Message := ⟨[0x6b], some [1], [], "a"⟩
def removing : Message := ⟨[0x6b], none, [], "b"⟩

theorem writing_sealed : ∃ headers, writing.sealWith sealing.envelope (fun _ => .ok (.serial 0)) =
    .ok ⟨sealedPart 0 [0x6b], some (sealedPart 0 [1]), headers⟩ :=
  ⟨_, rfl⟩

theorem removing_sealed : ∃ headers, removing.sealWith sealing.envelope (fun _ => .ok (.serial 2)) =
    .ok ⟨sealedPart 2 [0x6b], none, headers⟩ :=
  ⟨_, rfl⟩

/-- A run behind the two records, whatever their headers. -/
def reversed (headers headers' : List Header) : History :=
  (History.start ((Log.empty 2).changeAll
    [.append "kv" ⟨sealedPart 0 [0x6b], some (sealedPart 0 [1]), headers⟩,
      .append "kv" ⟨sealedPart 2 [0x6b], none, headers'⟩]) .openDict [] none).run
    sealing (List.replicate 20 .request)

/-- Partition 0 comes first, so the key is removed before it is written. -/
theorem reversed_eq (headers headers' : List Header) :
    ((reversed headers headers').stage.phase, (reversed headers headers').stage.atHand?,
      (reversed headers headers').world.consumer.next? (reversed headers headers').log,
      ((reversed headers headers').world.store.get? (reversed headers headers').world.files
        [0x6b]).map (Option.map StoredValue.value)) =
      (.consuming, none, none, .ok (some [1])) := by
  cbv

/-- What was published is replayed once it is all on the log. -/
def lost : Traffic :=
  (start sealing 2 .openDict [] none).run sealing
    ([.publish writing fun _ => .ok (.serial 0), .publish removing fun _ => .ok (.serial 2)] ++
      (List.replicate 20 History.Event.request).map .event)

theorem lost_shows :
    lost.history.CaughtUp ∧ lost.accepted = [writing, removing] ∧
      Message.lastValue? [0x6b] lost.accepted = none ∧
      (lost.history.world.store.get? lost.history.world.files [0x6b]).map
        (Option.map StoredValue.value) = .ok (some [1]) := by
  obtain ⟨headers, hwriting⟩ := writing_sealed
  obtain ⟨headers', hremoving⟩ := removing_sealed
  have hlost : lost.history = reversed headers headers' ∧ lost.accepted = [writing, removing] := by
    have hfirst := after_publish_of_ok (t := start sealing 2 .openDict [] none) sealing rfl rfl
      hwriting
    rw [lost, run, List.foldl_append, List.foldl_cons, List.foldl_cons, List.foldl_nil, hfirst,
      after_publish_of_ok sealing rfl rfl hremoving, ← run, run_events, reversed]
    exact ⟨congrArg (fun h => History.run sealing h _) rfl, rfl⟩
  obtain ⟨hhistory, haccepted⟩ := hlost
  have heq := reversed_eq headers headers'
  simp only [Prod.mk.injEq] at heq
  obtain ⟨hphase, hnothing, hended, hvalue⟩ := heq
  rw [hhistory, haccepted]
  exact ⟨⟨hphase, hnothing, hended⟩, rfl, by decide, hvalue⟩

end Traffic

end KeyedLog.Replay
