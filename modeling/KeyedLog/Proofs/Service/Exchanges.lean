import KeyedLog.Proofs.Http.Serving
import KeyedLog.Proofs.Log.Carrying
import KeyedLog.Proofs.Replay.Receiving
import KeyedLog.Service.Running

/-!
# Storing and reading through a running service

Requests are answered and records are replayed in any order. What an accepted request stored is on
the log, and it stays the last change of its key until another one is accepted; so once the replay
has come to the end of the log, the value is read as it was written.
-/
namespace KeyedLog

open Replay (Settings History Surroundings)

namespace Running

/-! ## Acts -/

/-- What a running service does: it answers a request, or its replay makes its next one. -/
inductive Act where
  | answer (q : Http.Request)
  | replay

/-- Answer a request as things stand. -/
def answered (r : Running) (q : Http.Request) : Http.Response × Running :=
  ((r.gateway.serve q).1, r.afterAnswer (r.gateway.serve q).2)

/-- The service with its replay at another stage, in other surroundings. -/
def resumed (r : Running) (reading : Reading) (stage : Replay.Stage) (w : Surroundings) : Running :=
  { r with
    schedule := w.schedule
    files := w.files
    reading := some { reading with
      stage := stage, store := w.store, consumer := w.consumer, signal := w.signal } }

/-- Let the replay make its next request. -/
def replayed (r : Running) : Running :=
  match r.reading with
  | none => r
  | some reading =>
    let (stage, w) :=
      Replay.step reading.settings Surroundings.answer reading.stage (r.world reading)
    r.resumed reading stage w

def after (r : Running) : Act → Running
  | .answer q => (r.answered q).2
  | .replay => r.replayed

def run (r : Running) (acts : List Act) : Running := acts.foldl after r

/-- The requests that are answered, with the replies. -/
def exchanges (r : Running) : List Act → List (Http.Request × Http.Response)
  | [] => []
  | .answer q :: rest => (q, (r.answered q).1) :: (r.answered q).2.exchanges rest
  | .replay :: rest => r.replayed.exchanges rest

/-- The replay consumes, nothing is at hand, and there is nothing left to deliver. -/
def Drained (r : Running) : Prop :=
  ∃ reading, r.reading = some reading ∧ reading.stage.phase = .consuming ∧
    reading.stage.atHand? = none ∧ reading.consumer.next? r.schedule.log = none

end Running

theorem Replay.Surroundings.subjects_answer (w : Surroundings) (request : Replay.Request) :
    (w.answer request).2.subjects = w.subjects := by
  cases request with
  | poll timeout =>
    rw [answer, poll]
    split
    · rfl
    · split <;> rfl
  | rest time =>
    rw [answer]
    split <;> rfl
  | _ => rfl

theorem Replay.step_subjects (s : Settings) (stage : Stage) (w : Surroundings) :
    (step s Surroundings.answer stage w).2.subjects = w.subjects := by
  rw [step]
  split
  · rfl
  · exact w.subjects_answer _

namespace Running

/-! ## What the service does for a request -/

variable {r : Running} {reading : Reading} {stage : Replay.Stage} {w : Surroundings}

theorem resumed_self (h : r.reading = some reading) :
    r.resumed reading reading.stage (r.world reading) = r := by
  obtain ⟨schedule, files, held, publisher, contact, supply, drawn, issued⟩ := r
  obtain rfl : held = some reading := h
  rfl

theorem replayed_eq (h : r.reading = some reading) : r.replayed = r.resumed reading
    (Replay.step reading.settings Surroundings.answer reading.stage (r.world reading)).1
    (Replay.step reading.settings Surroundings.answer reading.stage (r.world reading)).2 := by
  rw [replayed, h]

theorem supply_after (r : Running) (act : Act) : (r.after act).supply = r.supply := by
  cases act with
  | answer q => rfl
  | replay =>
    rw [after, replayed]
    split <;> rfl

/-- What there is to draw from stays the same. -/
theorem supply_run (r : Running) (acts : List Act) : (r.run acts).supply = r.supply := by
  induction acts generalizing r with
  | nil => rfl
  | cons act rest ih => exact (ih (r.after act)).trans (r.supply_after act)

/-- The surroundings of a replay that is resumed are those it is resumed in. -/
theorem world_resumed (h : w.subjects = reading.subjects) :
    (r.resumed reading stage w).world { reading with
      stage := stage, store := w.store, consumer := w.consumer, signal := w.signal } = w := by
  obtain ⟨schedule, consumer, store, files, subjects, signal⟩ := w
  obtain rfl : subjects = reading.subjects := h
  rfl

theorem exists_settleWithin (bound : Nat) (h : r.reading = some reading) :
    ∃ n, r.resumed reading
      (Replay.settleWithin reading.settings bound reading.stage (r.world reading)).1
      (Replay.settleWithin reading.settings bound reading.stage (r.world reading)).2 =
        r.run (List.replicate n .replay) := by
  induction bound generalizing r reading with
  | zero => exact ⟨0, resumed_self h⟩
  | succ bound ih =>
    have hstep := replayed_eq h
    have hsubjects : (Replay.step reading.settings Surroundings.answer reading.stage
      (r.world reading)).2.subjects = reading.subjects := Replay.step_subjects _ _ _
    rw [Replay.settleWithin]
    split
    · next framing w heq =>
      rw [heq] at hstep
      exact ⟨1, hstep.symm⟩
    · next outcome w heq =>
      rw [heq] at hstep
      exact ⟨1, hstep.symm⟩
    · next stage w _ _ heq =>
      rw [heq] at hstep hsubjects
      obtain ⟨n, hn⟩ := @ih r.replayed { reading with
        stage := stage, store := w.store, consumer := w.consumer, signal := w.signal }
        (by rw [hstep]; rfl)
      rw [hstep, world_resumed hsubjects, ← hstep] at hn
      refine ⟨n + 1, ?_⟩
      rw [List.replicate_succ]
      refine Eq.trans ?_ hn
      rw [hstep]
      rfl

/-- Settling is replaying for a while. -/
theorem exists_settled (r : Running) : ∃ n, r.settled = r.run (List.replicate n .replay) := by
  cases h : r.reading with
  | none => exact ⟨0, by simp [settled, h, run]⟩
  | some reading =>
    obtain ⟨n, hn⟩ := exists_settleWithin
      (Replay.settlingBound reading.settings (r.world reading)) h
    refine ⟨n, ?_⟩
    rw [← hn, settled, h]
    rfl

/-- A request is answered as things stand after some replaying, unless the service has stopped. -/
theorem request_eq (r : Running) (q : Http.Request) :
    ∃ n, let r' := r.run (List.replicate n .replay)
      r.request q = (none, r') ∨ r.request q = (some (r'.answered q).1, (r'.answered q).2) := by
  obtain ⟨n, hn⟩ := exists_settled r
  refine ⟨n, ?_⟩
  rw [← hn, request]
  dsimp only
  split
  · exact .inl rfl
  · exact .inr rfl

/-! ## The history of the replay -/

/-- The read side stands where a history of its replay does. -/
structure Mirrors (s : Settings) (h : History) (r : Running) : Prop where
  reading : r.reading = some ⟨s, h.world.store, h.world.subjects, h.stage, h.world.consumer,
    h.world.signal⟩
  schedule : r.schedule = h.world.schedule
  files : r.files = h.world.files

variable {s : Settings} {h : History}

namespace Mirrors

theorem world (hm : Mirrors s h r) : r.world ⟨s, h.world.store, h.world.subjects, h.stage,
    h.world.consumer, h.world.signal⟩ = h.world := by
  rw [Running.world, hm.schedule, hm.files]

theorem replayed (hm : Mirrors s h r) : Mirrors s (h.request s) r.replayed := by
  have hsubjects := Replay.step_subjects s h.stage h.world
  rw [replayed_eq hm.reading, hm.world]
  refine ⟨?_, rfl, rfl⟩
  rw [History.request, hsubjects]
  rfl

theorem log (hm : Mirrors s h r) : r.gateway.log = h.log := by
  rw [gateway, hm.schedule]
  rfl

theorem store (hm : Mirrors s h r) : r.gateway.store = some h.world.store := by
  rw [gateway, hm.reading]
  rfl

theorem caughtUp (hm : Mirrors s h r) (hdrained : r.Drained) : h.CaughtUp := by
  obtain ⟨reading, hreading, hphase, hnothing, hended⟩ := hdrained
  rw [hm.reading, Option.some.injEq] at hreading
  subst hreading
  rw [hm.schedule] at hended
  exact ⟨hphase, hnothing, hended⟩

variable {g : Http.Gateway}

theorem found (hm : Mirrors s h r) : r.gateway.files = h.world.files := hm.files

/-- What an answer leaves in the gateway is found by the replay. -/
theorem answered (hm : Mirrors s h r) {store : StateStore} (hstore : g.store = some store) :
    Mirrors s { h with world := { h.world with
      schedule := { h.world.schedule with log := g.log }, store := store, files := g.files } }
      (r.afterAnswer g) := by
  refine ⟨?_, ?_, rfl⟩
  · rw [afterAnswer, hm.reading, hstore]
    rfl
  · rw [afterAnswer, hm.schedule]

/-- An answer that leaves the gateway alone leaves the history where it is. -/
theorem of_alike (hm : Mirrors s h r) (halike : r.gateway.Alike g) :
    Mirrors s h (r.afterAnswer g) := by
  have hanswered := hm.answered (halike.store.trans hm.store)
  rw [halike.log, hm.log, halike.files, hm.found] at hanswered
  exact hanswered

theorem of_asked (hm : Mirrors s h r) {store : StateStore} (hstore : r.gateway.store = some store)
    (halike : { r.gateway with store := some (store.ready r.gateway.files).2 }.Alike g) :
    Mirrors s (h.after s .ask) (r.afterAnswer g) := by
  rw [hm.store, Option.some.injEq] at hstore
  subst hstore
  have hanswered := hm.answered halike.store
  rw [halike.log, hm.log, halike.files, hm.found] at hanswered
  exact hanswered

theorem of_published (hm : Mirrors s h r) {topic : String} {out : Outgoing}
    (halike : { r.gateway with log := (r.gateway.log.append topic out).2 }.Alike g) :
    Mirrors s (h.after s (.change (.append topic out))) (r.afterAnswer g) := by
  have hanswered := hm.answered (halike.store.trans hm.store)
  rw [halike.log, hm.log, halike.files, hm.found] at hanswered
  exact hanswered

end Mirrors

/-! ## What the service keeps -/

/-- A service whose write side publishes, with the envelope of the replay, to the one partition of
the topic that is replayed. -/
structure Stands (s : Settings) (origin h : History) (r : Running) : Prop where
  mirrors : Mirrors s h r
  publisher : r.publisher = some { topic := s.topic, envelope := s.envelope }
  steady : h.Steady
  single : h.log.partitionNumbers s.topic = [0]
  lived : ∃ events, h = origin.run s events ∧ ∀ e ∈ events, e.Retains s.topic

/-- The records that are replayed. -/
def recordsOf (s : Settings) (h : History) : List Record := (h.log.slot s.topic 0).records

variable {origin : History} {r' : Running}

namespace Stands

theorem there (hs : Stands s origin h r) : h.log.Exists s.topic := by
  refine Log.exists_of_mem_partitionNumbers (i := 0) ?_
  rw [hs.single]
  exact List.mem_singleton_self 0

theorem after (hs : Stands s origin h r) {e : History.Event} (he : e.Retains s.topic)
    (hm : Mirrors s (h.after s e) r') (hp : r'.publisher = r.publisher) :
    Stands s origin (h.after s e) r' := by
  obtain ⟨events, heq, hretains⟩ := hs.lived
  refine ⟨hm, hp.trans hs.publisher, hs.steady.after e, ?_, events ++ [e], ?_, ?_⟩
  · rcases (History.log_after (s := s) hs.steady.due e).2 with hlog | ⟨c, hlog, -⟩
    · rw [hlog]
      exact hs.single
    · rw [hlog, Log.partitionNumbers_change hs.steady.sound hs.there]
      exact hs.single
  · rw [History.run_concat, ← heq]
  · rw [List.forall_mem_append, List.forall_mem_singleton]
    exact ⟨hretains, he⟩

theorem recordsOf_after (hs : Stands s origin h r) {e : History.Event} (he : e.Spares s.topic) :
    recordsOf s (h.after s e) = recordsOf s h := by
  rcases (History.log_after (s := s) hs.steady.due e).2 with hlog | ⟨c, hlog, hc⟩
  · rw [recordsOf, hlog, recordsOf]
  · rw [recordsOf, hlog, Log.slot_change_of_spares hs.steady.sound ((hc _).2 he), recordsOf]

theorem replayed (hs : Stands s origin h r) : Stands s origin (h.after s .request) r.replayed := by
  refine hs.after (e := .request) trivial hs.mirrors.replayed ?_
  rw [replayed_eq hs.mirrors.reading]
  rfl

theorem home_eq (hs : Stands s origin h r) (out : Outgoing) : h.log.home s.topic out = 0 := by
  have hlt : h.log.home s.topic out < (h.log.partitionsFor s.topic).length :=
    hs.steady.sound.home_lt out
  have hwidth := Log.width_of_exists hs.there
  rw [hs.single, List.length_singleton, Log.width] at hwidth
  omega

theorem recordsOf_append (hs : Stands s origin h r) (out : Outgoing) :
    recordsOf s (h.after s (.change (.append s.topic out))) =
      recordsOf s h ++ [h.log.appended s.topic out] := by
  have hhome : (0 : Int) = h.log.home s.topic out := by
    rw [hs.home_eq]
    rfl
  show ((h.log.append s.topic out).2.slot s.topic 0).records = _
  rw [Log.slot_append hs.steady.sound, if_pos ⟨rfl, hhome⟩]
  rfl

end Stands

end Running

/-! ## What an answer leaves -/

namespace Http.Request

variable {q : Request} {route route' : Route} {o o' : Order}

/-- The body of a request is one order at most. -/
theorem Places.unique (h : q.Places route o) (h' : q.Places route' o') :
    route' = route ∧ o' = o := by
  obtain rfl := Option.some.inj (h'.path.symm.trans h.path)
  exact ⟨rfl, Option.some.inj (h'.order.symm.trans h.order)⟩

/-- An order with a value is one to store it. -/
theorem Places.stores (h : q.Places route o) {value : String} (hvalue : o.value = some value) :
    route = .store ∨ route = .storeBase64 := by
  have horder := h.order
  cases route with
  | store => exact .inl rfl
  | storeBase64 => exact .inr rfl
  | remove =>
    obtain ⟨key, -, rfl⟩ := Gateway.toOption_map_eq_some horder
    cases hvalue
  | _ => cases horder

/-- An order was accepted, and a change made. The reply carries the id of the order. So does the
change, unless the body names an id in a text that stands for other bytes. -/
structure Accepted (q : Request) (ids : Nat → String) (reply : Response) (route : Route)
    (o : Order) (c : Change) : Prop where
  places : q.Places route o
  asks : o.Asks route.decoding c
  status : reply.status = 200
  named : ∃ id, q.Names ids o id ∧ reply.correlation = carried id ∧
    (route = .store ∨ Correlation.headerName ∉ o.headers.map Prod.fst → c.correlation = id)

/-- An order for a key was accepted. -/
def Writes (q : Request) (reply : Response) (key : Bytes) : Prop :=
  reply.status = 200 ∧ ∃ route o, q.Places route o ∧ route.decoding o.key = .ok key

end Http.Request

namespace Running.Stands

variable {r : Running} {s : Settings} {origin h : History}

/-- What an answer leaves: the records as they were, or one more of an order that was accepted. -/
theorem answered (hs : Stands s origin h r) (hfit : r.supply.Fit) (q : Http.Request) :
    ∃ h', Stands s origin h' (r.answered q).2 ∧
      ((recordsOf s h' = recordsOf s h ∧
          ∀ route o, q.Places route o → (r.answered q).1.status ≠ 200) ∨
        ∃ route o c record, q.Accepted r.supply.ids (r.answered q).1 route o c ∧
          recordsOf s h' = recordsOf s h ++ [record] ∧
          Decoder.decode ⟨s.envelope, {}⟩ record = .ok c) := by
  have hserved := Http.Gateway.serve_served (g := r.gateway) (q := q) hfit hs.publisher
  rw [Running.answered]
  generalize r.gateway.serve q = answer at hserved ⊢
  cases hserved with
  | unchanged halike hrefused =>
    exact ⟨h, { hs with mirrors := hs.mirrors.of_alike halike }, .inl ⟨rfl, hrefused⟩⟩
  | asked hstore halike hread =>
    refine ⟨_, hs.after (e := .ask) trivial (hs.mirrors.of_asked hstore halike) rfl, .inl
      ⟨rfl, fun route o hplaces => absurd hplaces (hread route o)⟩⟩
  | @published _ _ _ _ out hplaces hmeans hnames hsealed halike hstatus hid =>
    refine ⟨_, hs.after (e := .change (.append s.topic out)) trivial
      (hs.mirrors.of_published halike) rfl, .inr ⟨_, _, _, _,
      ⟨hplaces, ?_, hstatus, _, hnames, hid, ?_⟩, hs.recordsOf_append out,
      Message.decode_of_sealWith hsealed _ _ _⟩⟩
    · exact ⟨hmeans.change.key, hmeans.change.value, hmeans.change.removal⟩
    · rintro (rfl | hunnamed)
      · exact Message.correlation_of_sealWith hsealed
          (hmeans.last_of_plain hplaces.nodup_headers hnames)
      · exact Message.correlation_of_sealWith hsealed (hmeans.last_of_unnamed hunnamed)

/-- Whatever the service does, the last change of a key stays while no order for it is accepted. -/
theorem run (hs : Stands s origin h r) (hfit : r.supply.Fit) (acts : List Act) (key : Bytes) :
    ∃ h', Stands s origin h' (r.run acts) ∧ ((∀ e ∈ r.exchanges acts, ¬e.1.Writes e.2 key) →
      Decoder.lastChange? ⟨s.envelope, {}⟩ key (recordsOf s h') =
        Decoder.lastChange? ⟨s.envelope, {}⟩ key (recordsOf s h)) := by
  induction acts generalizing r h with
  | nil => exact ⟨h, hs, fun _ => rfl⟩
  | cons act rest ih =>
    cases act with
    | replay =>
      obtain ⟨h', hs', hkept⟩ := ih hs.replayed ((supply_after r .replay).symm ▸ hfit)
      refine ⟨h', hs', fun hnone => ?_⟩
      rw [hkept hnone, hs.recordsOf_after (e := .request) trivial]
    | answer q =>
      -- what the answer leaves is known first: the rest of the acts start from there
      obtain ⟨between, hbetween, hleft⟩ := hs.answered hfit q
      obtain ⟨h', hs', hkept⟩ := ih hbetween hfit
      refine ⟨h', hs', fun hnone => ?_⟩
      rw [Running.exchanges, List.forall_mem_cons] at hnone
      obtain ⟨hother, hnone⟩ := hnone
      rw [hkept hnone]
      rcases hleft with ⟨hsame, -⟩ | ⟨route, o, c, record, haccepted, hrecords, hdecode⟩
      · rw [hsame]
      · have hkey : c.key ≠ key := by
          rintro rfl
          exact hother ⟨haccepted.status, route, o, haccepted.places, haccepted.asks.key⟩
        rw [hrecords, Decoder.lastChange?, Decoder.changes_append_of_ok hdecode,
          Change.last?_concat, if_neg hkey, Decoder.lastChange?]

/-- The one partition keeps the records of every key. -/
theorem keptIn (hs : Stands s origin h r) (d : Decoder) (key : Bytes) :
    History.KeptIn d h.log s.topic key 0 := by
  intro j record hrecord _ _ _
  by_contra hj
  rw [Log.records_eq, Log.slot_of_not_mem] at hrecord
  · cases hrecord
  · rw [hs.single, List.mem_singleton]
    exact hj

end Running.Stands

/-! ## Reading what was stored -/

namespace Running

variable {service : Service} {files files' : FileTree} {net : Network} {supply : Supply}
  {r : Running} {reading : Reading}

/-- The log that a service with a write side starts with. -/
def freshLog (topic : String) : Log := ((Log.empty 1).ensureTopic topic).2

theorem partitionNumbers_freshLog (topic : String) :
    (freshLog topic).partitionNumbers topic = [0] := by
  have hlog : freshLog topic = { Log.empty 1 with topics := [(topic, [{}])] } := rfl
  rw [hlog, Log.partitionNumbers, Log.partitionsOf, Assoc.get?, if_pos rfl]
  rfl

theorem sound_freshLog (topic : String) : (freshLog topic).Sound :=
  (Log.sound_empty 1).change (.create topic none)

/-- The read side begins with the replay that the configuration asks for. -/
theorem startReading_eq_ok {contact : Http.Contact}
    (h : startReading service files net = (.ok reading, files', contact)) :
    reading.settings.topic = service.config.topic ∧
      reading.settings.envelope = service.envelope ∧
      reading = ⟨reading.settings, reading.store, reading.subjects, .initial, {}, {}⟩ := by
  rw [startReading] at h
  dsimp only at h
  split at h
  · cases h
  · simp only [Prod.mk.injEq, Except.ok.injEq] at h
    obtain ⟨rfl, -⟩ := h
    exact ⟨rfl, rfl, rfl⟩

/-- Where a service with both sides starts. -/
theorem stands_start (hstart : start service files net supply = (.ok r, files'))
    (hwrites : service.config.writes) (hreading : r.reading = some reading) :
    r.supply = supply ∧ reading.settings.topic = service.config.topic ∧
      reading.settings.envelope = service.envelope ∧
      let origin := History.start (freshLog service.config.topic) reading.store r.files
        reading.subjects
      Stands reading.settings origin origin r := by
  rw [start, if_pos hwrites, if_pos hwrites] at hstart
  split at hstart
  · split at hstart
    · cases hstart
    · next opened files contact hopened =>
      simp only [Prod.mk.injEq, Except.ok.injEq] at hstart
      obtain ⟨rfl, rfl⟩ := hstart
      obtain rfl : opened = reading := Option.some.inj hreading
      obtain ⟨htopic, henvelope, hinitial⟩ := startReading_eq_ok hopened
      refine ⟨rfl, htopic, henvelope, ⟨congrArg some hinitial, rfl, rfl⟩, ?_,
        .start (sound_freshLog _) _ _ _, ?_, [], rfl, List.forall_mem_nil _⟩
      · rw [htopic, henvelope]
      · rw [htopic]
        exact partitionNumbers_freshLog _
  · simp only [Prod.mk.injEq, Except.ok.injEq] at hstart
    obtain ⟨rfl, -⟩ := hstart
    cases hreading

/-- An order to store a value that is accepted names an id, which the reply carries. Once there is
nothing left to replay, and no other order for the key has been accepted, the value is shown as it
was written, on the route that reads what this one stores. So is the id, unless the body names it in
a text that stands for other bytes. Which blocks are drawn does not matter, nor do the ids that are
supplied, as long as they are fit. -/
theorem stored_shows (hstart : start service files net supply = (.ok r, files'))
    (hfit : supply.Fit) (hwrites : service.config.writes) (hreading : r.reading = some reading)
    (hfresh : reading.store.Fresh r.files)
    (hframing : reading.settings.framing reading.subjects = {}) (before after : List Act)
    {q : Http.Request} {route : Http.Route} {o : Http.Order} {value : String}
    (hplaces : q.Places route o) (hvalue : o.value = some value) :
    let stored := (r.run before).answered q
    let last := stored.2.run after
    stored.1.status = 200 →
    (∀ key, route.decoding o.key = .ok key →
      ∀ e ∈ stored.2.exchanges after, ¬e.1.Writes e.2 key) →
    last.Drained →
    (reading.store.root?.isSome →
      last.schedule.log.Numbered ⟨service.envelope, {}⟩ service.config.topic) →
    ∃ id shown, q.Names supply.ids o id ∧ stored.1.correlation = Http.carried id ∧
      (Correlation.headerName ∉ o.headers.map Prod.fst → Http.carried id = some id) ∧
      (route = .store ∨ Correlation.headerName ∉ o.headers.map Prod.fst → shown = id) ∧
      ∀ q' : Http.Request, q'.Asks route.reading o.key →
        (last.answered q').1.Shows value shown := by
  intro stored last hstatus hnone hdrained hnumbered
  obtain ⟨rfl, htopic, henvelope, hs⟩ := stands_start hstart hwrites hreading
  obtain ⟨h₁, hs₁, -⟩ := hs.run hfit before []
  have hkeeps : (r.run before).supply = r.supply := supply_run r before
  obtain ⟨h₂, hs₂, hleft⟩ := hs₁.answered (hkeeps.symm ▸ hfit) q
  rcases hleft with ⟨-, hrefused⟩ | ⟨route', o', c, record, haccepted, hrecords, hdecode⟩
  · exact absurd hstatus (hrefused route o hplaces)
  obtain ⟨rfl, rfl⟩ := hplaces.unique haccepted.places
  obtain ⟨id, hnames, hreply, hnamed⟩ := haccepted.named
  obtain ⟨bytes, htext, hchange⟩ := haccepted.asks.value value hvalue
  obtain ⟨h₃, hs₃, hkept⟩ := hs₂.run (hkeeps.symm ▸ hfit) after c.key
  -- the change of the order is the last one of its key, on the log and so in the store
  have hlast : Decoder.lastStored? ⟨service.envelope, {}⟩ c.key
      (recordsOf reading.settings h₃) = some ⟨bytes, c.correlation⟩ := by
    rw [← henvelope, Decoder.lastStored?, hkept (hnone _ haccepted.asks.key), hrecords,
      Decoder.lastChange?, Decoder.changes_append_of_ok hdecode, Change.last?_concat, if_pos rfl,
      Option.bind_some, Change.stored?, hchange]
    rfl
  have hdecoder : reading.settings.decoder reading.subjects = ⟨service.envelope, {}⟩ := by
    rw [Settings.decoder, hframing, henvelope]
  have hlog : last.schedule.log = h₃.log := hs₃.mirrors.log
  rw [hlog, ← htopic, ← hdecoder] at hnumbered
  have hcaught := hs₃.mirrors.caughtUp hdrained
  have hkeptIn := hs₃.keptIn (reading.settings.decoder reading.subjects) c.key
  obtain ⟨events, hlived, hretains⟩ := hs₃.lived
  have hget : h₃.world.store.get? h₃.world.files c.key = .ok (some ⟨bytes, c.correlation⟩) := by
    rw [← hlast, ← hdecoder, recordsOf]
    rw [hlived] at hcaught hkeptIn hnumbered ⊢
    have hsound := sound_freshLog service.config.topic
    exact History.get?_of_keptIn reading.settings hsound hfresh reading.subjects events hretains
      (History.sized_of_numbered reading.settings hsound hfresh reading.subjects events hretains
        hnumbered) hcaught hkeptIn
  rw [show h₃.world.files = last.gateway.files from hs₃.mirrors.files.symm] at hget
  rw [hkeeps] at hnames
  refine ⟨id, c.correlation, hnames, hreply, hnames.carried_eq hfit, hnamed, fun q' hasks => ?_⟩
  exact Http.Gateway.serve_shows hs₃.mirrors.store (hplaces.stores hvalue) haccepted.asks.key
    htext hget hasks

/-- A service that keeps its state in memory and seals nothing. -/
def plainService : Service := ⟨{ topic := "kv", storage := { backend := .dict } }, .disabled, none⟩

def plainReading : Reading where
  settings := ⟨"kv", .disabled, false, {}⟩
  store := .openDict
  subjects := none

/-- It has just started. -/
def plain : Running where
  schedule := { log := freshLog "kv" }
  files := []
  reading := some plainReading
  publisher := some { topic := "kv", envelope := .disabled }
  supply := .serial

theorem start_plain : start plainService [] [] .serial = (.ok plain, []) := rfl

/-- A request in JSON that bears an id. -/
def posted (path body id : String) : Http.Request where
  method := "POST"
  path := path
  headers := [("content-type", Utf8.encode "application/json"),
    ("X-Correlation-Id", Utf8.encode id)]
  body := Utf8.encode body

def storing (id : String) : Http.Request := posted "/store" "[\"k\",\"v\"]" id

def retrieving : Http.Request := posted "/retrieve" "[\"k\"]" "other"

theorem places_storing (id : String) : (storing id).Places .store ⟨"k", some "v", []⟩ :=
  ⟨by cbv, rfl, by cbv, by cbv, by cbv⟩

theorem asks_retrieving : retrieving.Asks .retrieve "k" := ⟨by cbv, rfl, by cbv, by cbv, by cbv⟩

/-- The service when it has stored the value. -/
def storedWith (headers : List Header) (issued : Nat) : Running where
  schedule := { log := ((freshLog "kv").append "kv" ⟨[0x6b], some [0x76], headers⟩).2 }
  files := []
  reading := some plainReading
  publisher := some { topic := "kv", envelope := .disabled }
  supply := .serial
  drawn := 4
  issued := issued

theorem answered_storing {id own : String} {issued : Nat}
    (hid : plain.gateway.correlationOf (storing id) =
      (own, { plain.gateway with issued := issued })) :
    plain.answered (storing id) =
      (.correlated own 200 "Stored", storedWith [(Correlation.headerName, Utf8.encode own)]
        issued) := by
  have hplaces := places_storing id
  have hread : Http.Gateway.readStore (storing id).body = .ok ⟨"k", "v", []⟩ := by cbv
  have hnamed : plain.gateway.storeCorrelation (storing id) ⟨"k", "v", []⟩ = _ := hid
  rw [answered, Http.Gateway.serve_of_places rfl hplaces, Http.Gateway.handle,
    Http.Gateway.withBody_of_reads hread hplaces.type hplaces.length, Http.Gateway.storeWith,
    hnamed]
  rfl

/-- The service after a request to store and a while of replaying. -/
def replayedAfter (id : String) : Running :=
  (plain.answered (storing id)).2.run (List.replicate 12 .replay)

theorem drained_of_reading
    (h : (r.reading.map fun reading => (reading.stage.phase, reading.stage.atHand?,
      reading.consumer.next? r.schedule.log)) = some (.consuming, none, none)) : r.Drained := by
  obtain ⟨reading, hreading, heq⟩ := Option.map_eq_some_iff.mp h
  simp only [Prod.mk.injEq] at heq
  exact ⟨reading, hreading, heq⟩

theorem drained_storedWith (headers : List Header) (issued : Nat) :
    ((storedWith headers issued).run (List.replicate 12 .replay)).Drained :=
  drained_of_reading (by cbv)

theorem exchanges_replays (r : Running) (n : Nat) :
    r.exchanges (List.replicate n .replay) = [] := by
  induction n generalizing r with
  | zero => rfl
  | succ n ih => exact ih r.replayed

theorem visible_storing :
    ((storing "one").header? "x-correlation-id").bind Http.visible? = some "one" := by
  decide +kernel

theorem stored_shows_named :
    (plain.answered (storing "one")).1.status = 200 ∧ (replayedAfter "one").Drained ∧
      (plain.answered (storing "one")).1.correlation = some "one" ∧
      ((replayedAfter "one").answered retrieving).1.Shows "v" "one" := by
  have hfilled : Text.nonBlank? "one" = some "one" := by decide +kernel
  have hown : plain.gateway.correlationOf (storing "one") =
      ("one", { plain.gateway with issued := 0 }) := by
    rw [Http.Gateway.correlationOf, visible_storing, Option.bind_some, hfilled]
    rfl
  have hanswered := answered_storing hown
  have hstatus : (plain.answered (storing "one")).1.status = 200 := by
    rw [hanswered]
    rfl
  have hdrained : (replayedAfter "one").Drained := by
    rw [replayedAfter, hanswered]
    exact drained_storedWith _ _
  have hnone (key : Bytes) : ∀ e ∈ (plain.answered (storing "one")).2.exchanges
      (List.replicate 12 .replay), ¬e.1.Writes e.2 key := by
    rw [exchanges_replays]
    exact List.forall_mem_nil _
  obtain ⟨id, shown, hnames, hreply, -, hshown, hshows⟩ := stored_shows start_plain
    Supply.fit_serial rfl rfl (show plainReading.store.Fresh [] from rfl) rfl []
    (List.replicate 12 .replay) (places_storing "one") rfl hstatus (fun key _ => hnone key)
    hdrained fun hroot => by cases hroot
  obtain rfl : id = "one" := by
    have hvisible := visible_storing
    cases hnames with
    | body hbody => cases hbody
    | header _ hheader hown _ =>
      rw [hheader, Option.bind_some, hown] at hvisible
      exact Option.some.inj hvisible
    | supplied serial _ hblank =>
      obtain ⟨bytes, hheader, hown⟩ := Option.bind_eq_some_iff.mp hvisible
      exact absurd (hblank bytes "one" hheader hown) (by decide +kernel)
  rw [hshown (.inl rfl)] at hshows
  exact ⟨hstatus, hdrained, hreply, hshows retrieving asks_retrieving⟩

/-- The id of a request is replaced, though it is not blank, and a header may carry it. -/
theorem opaque_id_replaced :
    (storing "é").Places .store ⟨"k", some "v", []⟩ ∧
      (storing "é").header? "x-correlation-id" = some (Utf8.encode "é") ∧
      Text.isAllBlank "é" = false ∧ Http.carried "é" = some "é" ∧
      (plain.answered (storing "é")).1.status = 200 ∧
      (plain.answered (storing "é")).1.correlation = some "00000000-0000-4000-8000-000000000000" ∧
      (replayedAfter "é").Drained := by
  have hopaque : ((storing "é").header? "x-correlation-id").bind Http.visible? = none := by
    decide +kernel
  have hgenerated : Correlation.generated 0 = "00000000-0000-4000-8000-000000000000" := by
    unfold Correlation.generated Correlation.hexPadded Hex.ofNat
    rfl
  have hown : plain.gateway.correlationOf (storing "é") =
      ("00000000-0000-4000-8000-000000000000", { plain.gateway with issued := 1 }) := by
    rw [Http.Gateway.correlationOf, hopaque, ← hgenerated]
    rfl
  rw [replayedAfter, answered_storing hown]
  exact ⟨places_storing _, by cbv, by cbv, by cbv, rfl, by cbv, drained_storedWith _ _⟩

end Running

end KeyedLog
