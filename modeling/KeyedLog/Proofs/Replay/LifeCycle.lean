import KeyedLog.Proofs.Replay.Pace
import KeyedLog.Replay.Rehearsal

/-!
# The life of a run

Whatever its surroundings answer, a run goes through its phases in order. It sets the watermark once
every partition has answered and has a row, takes over the partitions after that, and ends by the
first failure it is told of or by an order to stop while it consumes. Its consumer is closed last
and once. As long as it has not ended it asks for more, and each thing it asks for gets it on.
-/
namespace KeyedLog.Replay

/-! ## What a run has been told -/

/-- No exchange so far has ended the run. -/
def Calm (s : Settings) (told : List Exchange) : Prop :=
  Along (fun before x => x.request ≠ .close ∧ x.fault? (s.decoderAfter before) = none ∧
    x.stops = false) told

/-- The clock has not been looked at yet, and the partitions have not been asked for. -/
structure Unsearched (told : List Exchange) : Prop where
  clock : told.findSome? Exchange.clock? = none
  listed : ∀ topic reply, .partitions topic reply ∉ told

/-- No partition has shown since the clock was looked at first, and the search for them ends when
the time for watermarks has passed. -/
structure Searching (s : Settings) (told : List Exchange) (deadline : Nat) : Prop where
  clock : ∃ started, told.findSome? Exchange.clock? = some started ∧
    deadline = started + s.timing.watermark
  listed : ∀ topic reply, .partitions topic reply ∈ told → reply = .ok []

/-- A partition has answered the query for its watermarks, and the row stands for it. The ledger had
a row for it, or one was seeded. -/
def Marked (s : Settings) (told : List Exchange) (ledger : List Position) (i : Int)
    (row : Position) : Prop :=
  ∃ w, row = ⟨s.topic, i, w.lastWritten⟩ ∧ .watermarks s i (.ok w) ∈ told ∧
    ((ledger.any fun row => row.samePartition ⟨s.topic, i, w.low⟩) ∨
      .advance ⟨s.topic, i, w.low⟩ (.ok ()) ∈ told)

/-- There are partitions, the ledger was read, and the watermarks of all partitions but some are
noted. -/
structure Noting (s : Settings) (told : List Exchange) (partitions : List Int)
    (ledger noted : List Position) (todo : List Int) : Prop where
  nonempty : partitions ≠ []
  listed : .partitions s.topic (.ok partitions) ∈ told
  read : .ledger (.ok ledger) ∈ told
  marked : ∃ done, partitions = done ++ todo ∧ List.Forall₂ (Marked s told ledger) done noted

/-- What comes before an exchange. The watermark is set when it is noted for all partitions.
Partitions are taken over once, after that. -/
structure Orderly (s : Settings) (before : List Exchange) (x : Exchange) : Prop where
  watermark : ∀ rows, x.request = .setWatermark rows →
    ∃ partitions ledger, Noting s before partitions ledger rows []
  assignment : ∀ topic starts, x.request = .assign topic starts →
    (∃ rows, .setWatermark rows ∈ before) ∧
      ∀ y ∈ before, ∀ topic starts, y.request ≠ .assign topic starts

/-- How an exchange ends a run, by those before it. -/
inductive Ended (s : Settings) (before : List Exchange) (x : Exchange) : Outcome → Prop where
  | stopped : x.stops = true → x.fault? (s.decoderAfter before) = none → Ended s before x (.ok ())
  | failed {e} : x.fault? (s.decoderAfter before) = some e → x.stops = false →
      Ended s before x (.error e)
  | deserted {deadline now} : Searching s before deadline →
      before.getLast? = some (.partitions s.topic (.ok [])) → x = .clock now → deadline ≤ now →
      Ended s before x (.error (.noPartitions s.topic))

/-- What a run has been told when it is at a stage. Its consumer is closed last, and nothing else
closes it. -/
inductive Told (s : Settings) : Stage → List Exchange → Prop where
  | going {stage told} : stage.outcome? = none → Calm s told → Told s stage told
  | closing {before x outcome} : Calm s before → x.request ≠ .close → Ended s before x outcome →
      Told s (.closing outcome) (before ++ [x])
  | finished {before x outcome} (reply) : Calm s before → x.request ≠ .close →
      Ended s before x outcome → Told s (.finished outcome) (before ++ [x, .close reply])

section

variable {s : Settings} {told : List Exchange} {x : Exchange} {i : Int} {row : Position}
  {partitions todo : List Int} {ledger noted : List Position}

theorem Unsearched.concat (h : Unsearched told) (hclock : x.clock? = none)
    (hlisted : ∀ topic reply, x ≠ .partitions topic reply) : Unsearched (told ++ [x]) where
  clock := by simp [h.clock, hclock]
  listed := by
    intro topic reply hmem
    rw [List.mem_append, List.mem_singleton] at hmem
    exact hmem.elim (h.listed topic reply) (hlisted topic reply ∘ Eq.symm)

theorem Unsearched.search (h : Unsearched told) (now : Nat) :
    Searching s (told ++ [.clock now]) (now + s.timing.watermark) where
  clock := ⟨now, by simp [h.clock, Exchange.clock, Exchange.clock?], rfl⟩
  listed := by
    intro topic reply hmem
    rw [List.mem_append, List.mem_singleton] at hmem
    exact hmem.elim (fun hmem => absurd hmem (h.listed topic reply)) nofun

theorem Searching.concat {deadline : Nat} (h : Searching s told deadline)
    (hx : ∀ topic reply, x = .partitions topic reply → reply = .ok []) :
    Searching s (told ++ [x]) deadline where
  clock := by
    obtain ⟨started, hstarted, hdeadline⟩ := h.clock
    exact ⟨started, by simp [hstarted], hdeadline⟩
  listed := by
    intro topic reply hmem
    rw [List.mem_append, List.mem_singleton] at hmem
    exact hmem.elim (h.listed topic reply) (hx topic reply ∘ Eq.symm)

theorem Told.calm {stage : Stage} (h : Told s stage told) (hopen : stage.outcome? = none) :
    Calm s told := by
  cases h with
  | going _ hcalm => exact hcalm
  | closing => cases hopen
  | finished => cases hopen

theorem Marked.concat (h : Marked s told ledger i row) : Marked s (told ++ [x]) ledger i row := by
  obtain ⟨w, hrow, hw, hseed⟩ := h
  exact ⟨w, hrow, List.mem_append_left _ hw, hseed.imp_right (List.mem_append_left _)⟩

theorem Noting.concat (h : Noting s told partitions ledger noted todo) :
    Noting s (told ++ [x]) partitions ledger noted todo := by
  obtain ⟨hnonempty, hlisted, hread, done, hdone, hmarked⟩ := h
  exact ⟨hnonempty, List.mem_append_left _ hlisted, List.mem_append_left _ hread, done, hdone,
    hmarked.imp fun _ _ => Marked.concat⟩

theorem Noting.mark (h : Noting s told partitions ledger noted (i :: todo))
    (hmark : Marked s told ledger i row) :
    Noting s told partitions ledger (noted ++ [row]) todo := by
  obtain ⟨hnonempty, hlisted, hread, done, hdone, hmarked⟩ := h
  refine ⟨hnonempty, hlisted, hread, done ++ [i], by simp [hdone], ?_⟩
  exact List.rel_append hmarked (.cons hmark .nil)

end

/-- What a run has been told of the partitions when it is at a stage, and that the watermark is set
from there on. -/
def Stage.Stands (s : Settings) (told : List Exchange) : Stage → Prop
  | creatingTopic => Unsearched told
  | askingSubjects => Unsearched told
  | startingClock _ => Unsearched told
  | queryingPartitions _ deadline => Searching s told deadline
  | checkingClock _ deadline =>
    Searching s told deadline ∧ told.getLast? = some (.partitions s.topic (.ok []))
  | retrying _ deadline => Searching s told deadline
  | readingLedger _ partitions =>
    partitions ≠ [] ∧ .partitions s.topic (.ok partitions) ∈ told
  | queryingWatermarks _ partitions ledger noted i todo =>
    Noting s told partitions ledger noted (i :: todo)
  | seeding _ partitions ledger noted seed todo =>
    ∃ i w rows, noted = rows ++ [⟨s.topic, i, w.lastWritten⟩] ∧ seed = ⟨s.topic, i, w.low⟩ ∧
      .watermarks s i (.ok w) ∈ told ∧ Noting s told partitions ledger rows (i :: todo)
  | settingWatermark _ partitions noted => ∃ ledger, Noting s told partitions ledger noted []
  | closing _ => True
  | finished _ => True
  | _ => ∃ rows, .setWatermark rows ∈ told

namespace Stage

variable {s : Settings} {stage : Stage} {ask : Ask} {told : List Exchange}

theorem stands_noteNext {framing : Framing} {partitions todo : List Int}
    {ledger noted : List Position} (h : Noting s told partitions ledger noted todo) :
    (noteNext framing partitions ledger noted todo).Stands s told := by
  cases todo with
  | nil => exact ⟨ledger, h⟩
  | cons i todo => exact h

theorem Stands.next (h : stage.Stands s told) (hask : stage.ask? s = some ask)
    (reply : ask.request.Answer) :
    (ask.next reply).Stands s (told ++ [⟨ask.request, reply⟩]) := by
  have hset : ∀ {x : Exchange}, (∃ rows, .setWatermark rows ∈ told) →
      ∃ rows, .setWatermark rows ∈ told ++ [x] :=
    fun ⟨rows, hrows⟩ => ⟨rows, List.mem_append_left _ hrows⟩
  cases stage with
  | creatingTopic =>
    obtain rfl := Option.some.inj hask
    dsimp only
    split <;> exact h.concat rfl nofun
  | askingSubjects =>
    obtain rfl := Option.some.inj hask
    exact h.concat rfl nofun
  | startingClock framing =>
    obtain rfl := Option.some.inj hask
    exact h.search reply
  | queryingPartitions framing deadline =>
    obtain rfl := Option.some.inj hask
    cases reply with
    | ok partitions =>
      cases partitions with
      | nil => exact ⟨h.concat fun _ _ heq => by cases heq; rfl, List.getLast?_concat⟩
      | cons i partitions =>
        exact ⟨List.cons_ne_nil _ _, List.mem_append_right _ (List.mem_singleton_self _)⟩
    | error e => trivial
  | checkingClock framing deadline =>
    obtain rfl := Option.some.inj hask
    dsimp only
    split
    · trivial
    · exact h.1.concat nofun
  | retrying framing deadline =>
    obtain rfl := Option.some.inj hask
    exact h.concat nofun
  | readingLedger framing partitions =>
    obtain rfl := Option.some.inj hask
    cases reply with
    | ok rows =>
      obtain ⟨hnonempty, hlisted⟩ := h
      refine stands_noteNext ⟨hnonempty, List.mem_append_left _ hlisted, ?_, [], rfl, .nil⟩
      exact List.mem_append_right _ (List.mem_singleton_self _)
    | error e => trivial
  | queryingWatermarks framing partitions ledger noted i todo =>
    obtain rfl := Option.some.inj hask
    cases reply with
    | ok w =>
      have hmem : Exchange.watermarks s i (.ok w) ∈ told ++ [.watermarks s i (.ok w)] :=
        List.mem_append_right _ (List.mem_singleton_self _)
      dsimp only [unlessBroker, note]
      split
      · next hrow => exact stands_noteNext (h.concat.mark ⟨w, rfl, hmem, .inl hrow⟩)
      · exact ⟨i, w, noted, rfl, rfl, hmem, h.concat⟩
    | error e => trivial
  | seeding framing partitions ledger noted seed todo =>
    obtain rfl := Option.some.inj hask
    cases reply with
    | ok _ =>
      obtain ⟨i, w, rows, rfl, rfl, hw, hnoted⟩ := h
      have hmem : Exchange.advance ⟨s.topic, i, w.low⟩ (.ok ()) ∈
          told ++ [.advance ⟨s.topic, i, w.low⟩ (.ok ())] :=
        List.mem_append_right _ (List.mem_singleton_self _)
      exact stands_noteNext
        (hnoted.concat.mark ⟨w, rfl, List.mem_append_left _ hw, .inr hmem⟩)
    | error e => trivial
  | settingWatermark framing partitions noted =>
    obtain rfl := Option.some.inj hask
    exact ⟨noted, List.mem_append_right _ (List.mem_singleton_self _)⟩
  | rereadingLedger framing partitions =>
    obtain rfl := Option.some.inj hask
    cases reply with
    | ok rows => exact hset h
    | error e => trivial
  | assigning framing starts =>
    obtain rfl := Option.some.inj hask
    cases reply with
    | ok _ => exact hset h
    | error e => trivial
  | checkingStop framing =>
    obtain rfl := Option.some.inj hask
    cases reply with
    | true => trivial
    | false => exact hset h
  | polling framing =>
    obtain rfl := Option.some.inj hask
    cases reply with
    | record r =>
      dsimp only [received, receive]
      split
      · exact hset h
      · trivial
    | tail => exact hset h
    | failed e => trivial
    | interrupted => trivial
  | applying framing place change =>
    obtain rfl := Option.some.inj hask
    cases reply with
    | ok _ => exact hset h
    | error e => trivial
  | recording framing place =>
    obtain rfl := Option.some.inj hask
    cases reply with
    | ok _ => exact hset h
    | error e => trivial
  | checkingLatch framing =>
    obtain rfl := Option.some.inj hask
    cases reply <;> exact hset h
  | evaluating framing =>
    obtain rfl := Option.some.inj hask
    cases reply with
    | ok _ => exact hset h
    | error e => trivial
  | resting framing =>
    obtain rfl := Option.some.inj hask
    cases reply with
    | true => exact hset h
    | false => trivial
  | closing outcome =>
    obtain rfl := Option.some.inj hask
    trivial
  | finished outcome => cases hask

/-- The framing of a run is what the registry has answered. -/
def Framed (s : Settings) (told : List Exchange) (stage : Stage) : Prop :=
  match stage.framing? with
  | some framing => framing = Framing.detect s.topic (told.findSome? Exchange.subjects?)
  | none => stage.outcome? = none → told.findSome? Exchange.subjects? = none

theorem Framed.decoder (h : stage.Framed s told) {framing : Framing}
    (hs : stage.framing? = some framing) : s.decoderAfter told = ⟨s.envelope, framing⟩ := by
  rw [Framed, hs] at h
  rw [Settings.decoderAfter, ← h]

theorem Framed.next {x : Exchange} {next : Stage} (h : stage.Framed s told)
    (hopen : stage.outcome? = none) (hon : stage.Onward s x next) :
    next.Framed s (told ++ [x]) := by
  rw [Framed] at h ⊢
  rw [List.findSome?_append]
  cases hs : stage.framing? with
  | none =>
    rw [hs] at h
    rw [h hopen]
    cases hnext : next.framing? with
    | none => exact fun hnone => by simp [(hon.asks hnone hnext).2]
    | some framing =>
      rcases hon.framing framing hnext with hsame | ⟨-, hfound⟩
      · rw [hs] at hsame
        cases hsame
      · simpa using hfound
  | some framing =>
    rw [hs] at h
    have hx := hon.settled framing hs
    simp only [List.findSome?_singleton, hx, Option.or_none]
    cases hnext : next.framing? with
    | none =>
      intro hnone
      rw [(hon.asks hnone hnext).1] at hs
      cases hs
    | some framing' =>
      rcases hon.framing framing' hnext with hsame | ⟨hnone, -⟩
      · rw [hs] at hsame
        exact (Option.some.inj hsame).symm.trans h
      · rw [hs] at hnone
        cases hnone

/-! ### The requests that matter -/

theorem request_ne_close (hask : stage.ask? s = some ask) (hopen : stage.outcome? = none) :
    ask.request ≠ .close := by
  cases stage with
  | closing outcome => cases hopen
  | finished outcome => cases hopen
  | _ =>
    obtain rfl := Option.some.inj hask
    nofun

theorem of_request_setWatermark (hask : stage.ask? s = some ask) {rows : List Position}
    (h : ask.request = .setWatermark rows) :
    ∃ framing partitions, stage = settingWatermark framing partitions rows := by
  cases stage with
  | settingWatermark framing partitions noted =>
    obtain rfl := Option.some.inj hask
    cases h
    exact ⟨framing, partitions, rfl⟩
  | finished outcome => cases hask
  | _ =>
    obtain rfl := Option.some.inj hask
    cases h

theorem of_request_clock (hask : stage.ask? s = some ask) (h : ask.request = .clock) :
    (∃ framing, stage = startingClock framing) ∨
      ∃ framing deadline, stage = checkingClock framing deadline := by
  cases stage with
  | startingClock framing => exact .inl ⟨framing, rfl⟩
  | checkingClock framing deadline => exact .inr ⟨framing, deadline, rfl⟩
  | finished outcome => cases hask
  | _ =>
    obtain rfl := Option.some.inj hask
    cases h

theorem of_request_assign (hask : stage.ask? s = some ask) {topic : String}
    {starts : List PartitionStart} (h : ask.request = .assign topic starts) :
    ∃ framing, stage = assigning framing starts := by
  cases stage with
  | assigning framing starts =>
    obtain rfl := Option.some.inj hask
    cases h
    exact ⟨framing, rfl⟩
  | finished outcome => cases hask
  | _ =>
    obtain rfl := Option.some.inj hask
    cases h

end Stage

/-- No partitions have been taken over. -/
def Unassigned (told : List Exchange) : Prop :=
  ∀ x ∈ told, ∀ topic starts, x.request ≠ .assign topic starts

/-- What holds of a run that has not ended. -/
structure Stage.Going (s : Settings) (told : List Exchange) (stage : Stage) : Prop where
  stands : stage.Stands s told
  framed : stage.Framed s told
  unassigned : stage.phase ≠ .consuming → Unassigned told
  paced : stage.Paced told

/-- What holds of a run at any stage. -/
structure Chronicle.Lives {σ : Type} (s : Settings) (c : Chronicle σ) : Prop where
  phases : Phase.Entered c.stage c.phases
  told : Told s c.stage c.told
  orderly : Along (Orderly s) c.told
  going : c.stage.outcome? = none → c.stage.Going s c.told

namespace Stage

variable {s : Settings} {stage : Stage} {ask : Ask} {told : List Exchange} {phases : List Phase}

/-! ### One step -/

theorem Going.orderly (h : stage.Going s told) (hask : stage.ask? s = some ask)
    (reply : ask.request.Answer) : Orderly s told ⟨ask.request, reply⟩ where
  watermark := by
    intro rows hrows
    obtain ⟨framing, partitions, rfl⟩ := of_request_setWatermark hask hrows
    exact ⟨partitions, h.stands⟩
  assignment := by
    intro topic starts hassign
    obtain ⟨framing, rfl⟩ := of_request_assign hask hassign
    exact ⟨h.stands, h.unassigned nofun⟩

theorem Going.next (h : stage.Going s told) (hask : stage.ask? s = some ask)
    (hopen : stage.outcome? = none) {reply : ask.request.Answer}
    (hon : stage.Onward s ⟨ask.request, reply⟩ (ask.next reply))
    (hnext : (ask.next reply).outcome? = none) :
    (ask.next reply).Going s (told ++ [⟨ask.request, reply⟩]) where
  stands := h.stands.next hask reply
  framed := h.framed.next hopen hon
  unassigned := by
    intro hphase x hx topic starts hassign
    rw [List.mem_append, List.mem_singleton] at hx
    rcases hx with hx | rfl
    · exact h.unassigned (hon.not_consuming hnext hphase) x hx topic starts hassign
    · obtain ⟨framing, rfl⟩ := of_request_assign hask hassign
      obtain rfl := Option.some.inj hask
      cases reply with
      | ok _ => exact hphase rfl
      | error e => cases hnext
  paced := h.paced.next hask hopen hon hnext

/-- A run that has not ended asks for something, and each answer takes it somewhere. -/
theorem Going.exists_meets (h : stage.Going s told) (hopen : stage.outcome? = none) :
    ∃ ask, stage.ask? s = some ask ∧ ∀ reply,
      stage.Meets s (s.decoderAfter told) ⟨ask.request, reply⟩ (ask.next reply) := by
  obtain ⟨ask, hask⟩ := exists_ask (s := s) hopen
  exact ⟨ask, hask, meets hask hopen fun _ => h.framed.decoder⟩

theorem Going.ended {x : Exchange} {outcome : Outcome} (h : stage.Going s told)
    (hmeets : stage.Meets s (s.decoderAfter told) x (.closing outcome)) :
    Ended s told x outcome := by
  cases hmeets with
  | on hnext => cases hnext
  | fault hfault hstops => exact .failed hfault hstops
  | stop hfault hstops => exact .stopped hstops hfault
  | deserted hstage hclock hlate =>
    obtain rfl := hstage
    exact .deserted h.stands.1 h.stands.2 hclock hlate

/-- A run that finds no partitions ends when the clock shows that the time for them has passed. -/
theorem Going.closing_of_late (h : stage.Going s told) (hask : stage.ask? s = some ask)
    {reply : ask.request.Answer} {deadline now : Nat} (hsearching : Searching s told deadline)
    (hclock : (⟨ask.request, reply⟩ : Exchange) = .clock now) (hlate : deadline ≤ now) :
    ask.next reply = .closing (.error (.noPartitions s.topic)) := by
  obtain ⟨started, hstarted, hdeadline⟩ := hsearching.clock
  rcases of_request_clock hask (congrArg Exchange.request hclock) with
    ⟨framing, rfl⟩ | ⟨framing, deadline', rfl⟩
  · rw [h.stands.clock] at hstarted
    cases hstarted
  · obtain ⟨started', hstarted', hdeadline'⟩ := h.stands.1.clock
    obtain rfl := Option.some.inj (hstarted.symm.trans hstarted')
    obtain rfl := Option.some.inj hask
    cases hclock
    exact if_pos (by omega)

theorem Going.closing_of_ended (h : stage.Going s told) (hask : stage.ask? s = some ask)
    {reply : ask.request.Answer} {outcome : Outcome}
    (hmeets : stage.Meets s (s.decoderAfter told) ⟨ask.request, reply⟩ (ask.next reply))
    (hended : Ended s told ⟨ask.request, reply⟩ outcome) : ask.next reply = .closing outcome := by
  cases hended with
  | stopped hstops hfault => exact hmeets.closing_of_stops hstops
  | failed hfault hstops => exact hmeets.closing_of_fault hfault
  | deserted hsearching _ hclock hlate => exact h.closing_of_late hask hsearching hclock hlate

theorem Going.told_next {next : Stage} {x : Exchange} (h : stage.Going s told) (hcalm : Calm s told)
    (hmeets : stage.Meets s (s.decoderAfter told) x next) (hx : x.request ≠ .close) :
    Told s next (told ++ [x]) := by
  rcases hmeets.open_or_closing with ⟨hnext, hfault, hstops⟩ | ⟨outcome, rfl⟩
  · exact .going hnext (hcalm.concat ⟨hx, hfault, hstops⟩)
  · exact .closing hcalm hx (h.ended hmeets)

end Stage

namespace Chronicle

variable {σ : Type} {s : Settings} {answer : Answering σ} {c : Chronicle σ}

theorem lives_start (s : Settings) (world : σ) : (start world).Lives s where
  phases := .going rfl
  told := .going rfl along_nil
  orderly := along_nil
  going := fun _ => ⟨⟨rfl, nofun⟩, fun _ => rfl, fun _ => nofun, fun _ => Nat.le_refl _, nofun⟩

theorem next_closing {outcome : Outcome} (hs : c.stage = .closing outcome) :
    c.next s answer = ⟨.finished outcome, (answer c.world .close).2,
      c.told ++ [.close (answer c.world .close).1], c.phases ++ [.stopped]⟩ := by
  rw [next, hs]
  rfl

theorem next_finished {outcome : Outcome} (hs : c.stage = .finished outcome) :
    c.next s answer = c := by
  rw [next, hs]
  rfl

theorem Lives.next_going (h : c.Lives s) (hopen : c.stage.outcome? = none) (hcalm : Calm s c.told) :
    (c.next s answer).Lives s := by
  have hgoing := h.going hopen
  obtain ⟨ask, hask, hall⟩ := hgoing.exists_meets hopen
  have hmeets := hall (answer c.world ask.request).1
  rw [next, hask]
  exact {
    phases := h.phases.next hopen hmeets (hmeets.onward hopen)
    told := hgoing.told_next hcalm hmeets (Stage.request_ne_close hask hopen)
    orderly := h.orderly.concat (hgoing.orderly hask _)
    going := hgoing.next hask hopen (hmeets.onward hopen) }

theorem Lives.next_closing {outcome : Outcome} (h : c.Lives s) (hs : c.stage = .closing outcome) :
    (c.next s answer).Lives s := by
  obtain ⟨hphases, htold, horderly, -⟩ := h
  rw [hs] at hphases htold
  rw [Chronicle.next_closing hs]
  refine ⟨?_, ?_, horderly.concat ⟨nofun, nofun⟩, nofun⟩
  · generalize c.phases = phases at *
    cases hphases with
    | going hopen => cases hopen
    | closing hok => simpa using .finished hok
  · generalize c.told = told at *
    cases htold with
    | going hopen => cases hopen
    | closing hcalm hx hended => simpa using .finished _ hcalm hx hended

theorem Lives.next (h : c.Lives s) : (c.next s answer).Lives s := by
  cases hs : c.stage with
  | closing outcome => exact h.next_closing hs
  | finished outcome => rwa [next_finished hs]
  | _ =>
    have hopen : c.stage.outcome? = none := by rw [hs]; rfl
    exact h.next_going hopen (h.told.calm hopen)

theorem lives (s : Settings) (answer : Answering σ) (world : σ) (n : Nat) :
    (upTo s answer world n).Lives s := by
  induction n with
  | zero => exact lives_start s world
  | succ n ih => exact ih.next

/-- The life of a run so far. A run that was ordered to stop has been through all its phases. As
long as one that has not ended does not consume, it has made fewer than eight requests and those
that partitions add; and when it consumes, one of its last five was a look for an order to stop. -/
structure LifeCycle (s : Settings) (c : Chronicle σ) : Prop where
  phases : ∃ entered, entered ≠ [] ∧ entered <+: Phase.course ∧
    c.phases = entered ++ c.stage.farewell ∧
    (c.stage.outcome? = some (.ok ()) → entered = Phase.course)
  orderly : Along (Orderly s) c.told
  told : Told s c.stage c.told
  starts : c.stage.outcome? = none → c.stage.phase ≠ .consuming →
    c.told.length < 8 + (c.told.map Exchange.delay).sum
  watches : c.stage.phase = .consuming → Watched c.told 4

/-- What a run does next. As long as it has not ended it makes a request, and goes on with what the
surroundings answer, or closes its consumer if that has ended it. With the consumer closed it is
over, and does nothing more. -/
structure Proceeds (s : Settings) (answer : Answering σ) (c : Chronicle σ) : Prop where
  asks : c.stage.outcome? = none → ∃ request,
    let x : Exchange := ⟨request, (answer c.world request).1⟩
    let c' := c.next s answer
    c'.told = c.told ++ [x] ∧ c'.world = (answer c.world request).2 ∧
      ∀ outcome, c'.stage = .closing outcome ↔ Ended s c.told x outcome
  closes : ∀ outcome, c.stage = .closing outcome →
    let c' := c.next s answer
    c'.told = c.told ++ [.close (answer c.world .close).1] ∧
      c'.world = (answer c.world .close).2 ∧ c'.stage = .finished outcome
  rests : ∀ outcome, c.stage = .finished outcome → c.next s answer = c

theorem Lives.lifeCycle (h : c.Lives s) : c.LifeCycle s where
  phases := h.phases.exists_course
  orderly := h.orderly
  told := h.told
  starts := by
    intro hopen hphase
    have hahead := (h.going hopen).paced.ahead hphase
    have hpos := Stage.ahead_pos hopen hphase
    omega
  watches := by
    intro hphase
    have hopen : c.stage.outcome? = none := by
      cases hs : c.stage <;> first | rfl | (rw [hs] at hphase; cases hphase)
    exact ((h.going hopen).paced.behind hphase).mono c.stage.behind_le

theorem Lives.proceeds (h : c.Lives s) (answer : Answering σ) : c.Proceeds s answer where
  asks := by
    intro hopen
    have hgoing := h.going hopen
    obtain ⟨ask, hask, hall⟩ := hgoing.exists_meets hopen
    have hmeets := hall (answer c.world ask.request).1
    refine ⟨ask.request, ?_⟩
    rw [Chronicle.next, hask]
    refine ⟨rfl, rfl, fun outcome => ⟨fun hclosing => ?_, hgoing.closing_of_ended hask hmeets⟩⟩
    dsimp only at hclosing
    rw [hclosing] at hmeets
    exact hgoing.ended hmeets
  closes := by
    intro outcome hs
    rw [Chronicle.next_closing hs]
    exact ⟨rfl, rfl, rfl⟩
  rests := fun _ hs => next_finished hs

/-- Whatever its surroundings answer, a run has this life, and it proceeds until it is over. -/
theorem life_cycle (s : Settings) (answer : Answering σ) (world : σ) (n : Nat) :
    let c := upTo s answer world n
    steps s answer n .initial world = (c.stage, c.world) ∧ c.LifeCycle s ∧ c.Proceeds s answer := by
  have hlives := lives s answer world n
  exact ⟨steps_eq s answer world n, hlives.lifeCycle, hlives.proceeds answer⟩

def rehearsed : Settings := ⟨"kv", .disabled, false, {}⟩

/-- The replay of one record by a script, with an order to stop when the end is reached. -/
def rehearsal (script : Script) : Rehearsal where
  script := script
  world :=
    { schedule := { log := (Log.empty 1).change (.append "kv" ⟨[1], some [10], []⟩) }
      store := .openDict }
  tails := []

/-- A run whose topic cannot be created. -/
def stopped : Chronicle Rehearsal :=
  upTo rehearsed Rehearsal.answer (rehearsal { createFails := some "refused" }) 19

/-- A run whose second poll fails, and whose consumer does not close. -/
def failed : Chronicle Rehearsal :=
  upTo rehearsed Rehearsal.answer (rehearsal { pollFailsAt := some 2, closeFails := true }) 18

/-- One run is stopped while it rests, and the other fails when it polls. Each closes its consumer
last. -/
theorem life_cycle_stopped_or_failed :
    (stopped.stage = .finished (.ok ()) ∧
      stopped.phases = Phase.course ++ [.closing, .stopped] ∧
      ∃ before x reply, stopped.told = before ++ [x, .close reply] ∧ x.stops = true) ∧
    failed.stage = .finished (.error (.broker (.consume "scripted"))) ∧
      ∃ before x reply, failed.told = before ++ [x, .close reply] ∧
        x.fault? (rehearsed.decoderAfter before) = some (.broker (.consume "scripted")) := by
  have hstopped : stopped.stage = .finished (.ok ()) := by cbv
  have hfailed : failed.stage = .finished (.error (.broker (.consume "scripted"))) := by cbv
  obtain ⟨-, hlives, -⟩ : _ ∧ stopped.LifeCycle rehearsed ∧ _ := life_cycle _ _ _ _
  obtain ⟨-, hfails, -⟩ : _ ∧ failed.LifeCycle rehearsed ∧ _ := life_cycle _ _ _ _
  obtain ⟨entered, -, -, hphases, hall⟩ := hlives.phases
  have htold := hlives.told
  have htold' := hfails.told
  rw [hstopped] at hphases hall htold
  rw [hfailed] at htold'
  rw [hall rfl] at hphases
  refine ⟨⟨hstopped, hphases, ?_⟩, hfailed, ?_⟩
  · generalize stopped.told = told at htold
    cases htold with
    | going hopen => cases hopen
    | finished reply _ _ hended =>
      cases hended with
      | stopped hstops => exact ⟨_, _, reply, rfl, hstops⟩
  · generalize failed.told = told at htold'
    cases htold' with
    | going hopen => cases hopen
    | finished reply _ _ hended =>
      cases hended with
      | failed hfault => exact ⟨_, _, reply, rfl, hfault⟩

end Chronicle

/-- Only an order that was given stops a run. -/
theorem Surroundings.signal_of_stops {w : Surroundings} {request : Request}
    (h : Exchange.stops ⟨request, (answer w request).1⟩ = true) :
    w.signal.flag = true ∨ w.signal.changed = true := by
  cases request with
  | stopped => exact .inl h
  | poll timeout =>
    rw [answer, poll] at h
    split at h
    · next hchanged => exact .inr hchanged
    · split at h <;> cases h
  | rest time =>
    rw [answer] at h
    split at h
    · next hchanged => exact .inr hchanged
    · cases h
  | _ => cases h

end KeyedLog.Replay
