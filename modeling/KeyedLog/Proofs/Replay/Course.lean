import KeyedLog.Proofs.Replay.Standing
import KeyedLog.Proofs.Replay.Transcript

/-!
# The course of a run

What one exchange does to a run. A run goes on to the next of its phases or ends: by a failure it is
told of, by an order to stop while it consumes, or because no partition has shown in time.
-/
namespace KeyedLog.Replay

/-! ## Phases -/

namespace Stage

/-- How a run has ended, or is about to. -/
def outcome? : Stage → Option Outcome
  | closing outcome => some outcome
  | finished outcome => some outcome
  | _ => none

/-- The phases a run has entered since it ended. -/
def farewell : Stage → List Phase
  | closing _ => [.closing]
  | finished _ => [.closing, .stopped]
  | _ => []

end Stage

namespace Phase

/-- The phases of a run that has not ended. -/
def course : List Phase := [.starting, .capturingWatermark, .subscribing, .consuming]

/-- The phases up to one of these. -/
def upTo : Phase → List Phase
  | starting => [.starting]
  | capturingWatermark => [.starting, .capturingWatermark]
  | subscribing => [.starting, .capturingWatermark, .subscribing]
  | _ => course

/-- The phase that comes after another. -/
inductive Leads : Phase → Phase → Prop where
  | capture : Leads .starting .capturingWatermark
  | subscribe : Leads .capturingWatermark .subscribing
  | consume : Leads .subscribing .consuming
  | close {p} : p ∈ course → Leads p .closing
  | stop : Leads .closing .stopped

theorem upTo_ne_nil (p : Phase) : upTo p ≠ [] := by cases p <;> decide

theorem upTo_prefix (p : Phase) : upTo p <+: course := by cases p <;> decide

theorem Leads.upTo {p q : Phase} (h : Leads p q) (hq : q ∈ course) : upTo q = upTo p ++ [q] := by
  cases h with
  | close => simp [course] at hq
  | stop => simp [course] at hq
  | _ => rfl

theorem Leads.ne {p q : Phase} (h : Leads p q) : q ≠ p := by
  cases h with
  | close hp => rintro rfl; simp [course] at hp
  | _ => nofun

theorem Leads.not_mem_course {q : Phase} (h : Leads .consuming q) : q ∉ course := by
  cases h
  simp [course]

/-- The phases a run has entered when it is at a stage. -/
inductive Entered : Stage → List Phase → Prop where
  | going {stage} : stage.outcome? = none → Entered stage (upTo stage.phase)
  | closing {p outcome} : (outcome = .ok () → p = .consuming) →
      Entered (.closing outcome) (upTo p ++ [.closing])
  | finished {p outcome} : (outcome = .ok () → p = .consuming) →
      Entered (.finished outcome) (upTo p ++ [.closing, .stopped])

end Phase

/-! ## One exchange -/

namespace Stage

variable {s : Settings} {d : Decoder} {stage : Stage} {ask : Ask}

/-- How the phase and the framing of a run go on. The framing is settled by the registry before a
watermark is noted. -/
structure Onward (s : Settings) (stage : Stage) (x : Exchange) (next : Stage) : Prop where
  phase : next.phase = stage.phase ∨ Phase.Leads stage.phase next.phase
  framing : ∀ framing, next.framing? = some framing → stage.framing? = some framing ∨
    stage.framing? = none ∧ framing = Framing.detect s.topic x.subjects?
  settled : ∀ framing, stage.framing? = some framing → x.subjects? = none
  asks : next.outcome? = none → next.framing? = none →
    stage.framing? = none ∧ x.subjects? = none

theorem Onward.stay {x : Exchange} {next : Stage} (hphase : next.phase = stage.phase)
    (hframing : next.framing? = stage.framing?) (hx : x.subjects? = none) :
    Onward s stage x next where
  phase := .inl hphase
  framing := fun _ h => .inl (hframing ▸ h)
  settled := fun _ _ => hx
  asks := fun _ hnone => ⟨hframing ▸ hnone, hx⟩

theorem Onward.enter {x : Exchange} {next : Stage} (hphase : Phase.Leads stage.phase next.phase)
    (hframing : next.framing? = stage.framing?) (hx : x.subjects? = none) :
    Onward s stage x next where
  phase := .inr hphase
  framing := fun _ h => .inl (hframing ▸ h)
  settled := fun _ _ => hx
  asks := fun _ hnone => ⟨hframing ▸ hnone, hx⟩

/-- The registry has settled the framing. -/
theorem Onward.capture {x : Exchange} {next : Stage} (hstarting : stage.phase = .starting)
    (hphase : next.phase = .capturingWatermark) (hnone : stage.framing? = none)
    (hframing : next.framing? = some (Framing.detect s.topic x.subjects?)) :
    Onward s stage x next where
  phase := .inr (hstarting ▸ hphase ▸ .capture)
  framing := fun _ h => .inr ⟨hnone, (Option.some.inj (hframing.symm.trans h)).symm⟩
  settled := by simp [hnone]
  asks := by simp [hframing]

theorem Onward.leave {x : Exchange} {outcome : Outcome} (hphase : stage.phase ∈ Phase.course)
    (hx : x.subjects? = none) : Onward s stage x (closing outcome) where
  phase := .inr (.close hphase)
  framing := nofun
  settled := fun _ _ => hx
  asks := nofun

theorem phase_mem_course (hopen : stage.outcome? = none) : stage.phase ∈ Phase.course := by
  cases stage <;> simp [outcome?, phase, Phase.course] at hopen ⊢

/-- A run that has begun to consume consumes until it ends. -/
theorem Onward.not_consuming {x : Exchange} {next : Stage} (hon : Onward s stage x next)
    (hnext : next.outcome? = none) (hphase : next.phase ≠ .consuming) :
    stage.phase ≠ .consuming := by
  intro hconsuming
  rcases hon.phase with hsame | hleads
  · exact hphase (hsame.trans hconsuming)
  · rw [hconsuming] at hleads
    exact hleads.not_mem_course (phase_mem_course hnext)

/-- Where an exchange takes a run that has not ended. -/
inductive Meets (s : Settings) (d : Decoder) (stage : Stage) (x : Exchange) : Stage → Prop where
  | on {next} : next.outcome? = none → x.fault? d = none → x.stops = false →
      Onward s stage x next → Meets s d stage x next
  | fault {e} : x.fault? d = some e → x.stops = false → Meets s d stage x (closing (.error e))
  | stop : x.fault? d = none → x.stops = true → stage.phase = .consuming →
      Meets s d stage x (closing (.ok ()))
  | deserted {framing deadline now} : stage = checkingClock framing deadline →
      x = .clock now → deadline ≤ now → Meets s d stage x (closing (.error (.noPartitions s.topic)))

theorem Meets.open_or_closing {x : Exchange} {next : Stage} (h : Meets s d stage x next) :
    next.outcome? = none ∧ x.fault? d = none ∧ x.stops = false ∨
      ∃ outcome, next = .closing outcome := by
  cases h with
  | on hnext hfault hstops => exact .inl ⟨hnext, hfault, hstops⟩
  | _ => exact .inr ⟨_, rfl⟩

/-- An order to stop ends a run. -/
theorem Meets.closing_of_stops {x : Exchange} {next : Stage} (h : Meets s d stage x next)
    (hstops : x.stops = true) : next = .closing (.ok ()) := by
  cases h with
  | stop => rfl
  | on _ _ hnot => cases hstops.symm.trans hnot
  | fault _ hnot => cases hstops.symm.trans hnot
  | deserted _ hclock =>
    obtain rfl := hclock
    cases hstops

/-- A failure ends a run. -/
theorem Meets.closing_of_fault {x : Exchange} {next : Stage} {e : ReplayError}
    (h : Meets s d stage x next) (hfault : x.fault? d = some e) : next = .closing (.error e) := by
  cases h with
  | fault hfound =>
    obtain rfl := Option.some.inj (hfault.symm.trans hfound)
    rfl
  | on _ hnone => cases hfault.symm.trans hnone
  | stop hnone => cases hfault.symm.trans hnone
  | deserted _ hclock =>
    obtain rfl := hclock
    cases hfault

theorem exists_ask (hopen : stage.outcome? = none) : ∃ ask, stage.ask? s = some ask := by
  cases stage <;> first | exact ⟨_, rfl⟩ | cases hopen

theorem Meets.onward {x : Exchange} {next : Stage} (h : Meets s d stage x next)
    (hopen : stage.outcome? = none) : Onward s stage x next := by
  have hcourse := phase_mem_course hopen
  cases h with
  | on _ _ _ hon => exact hon
  | fault hfault => exact .leave hcourse (Exchange.subjects?_of_fault hfault)
  | stop _ hstops => exact .leave hcourse (Exchange.subjects?_of_stops hstops)
  | deserted _ hclock =>
    obtain rfl := hclock
    exact .leave hcourse rfl

/-- The next partition is noted, or all of them are. -/
theorem Meets.noteNext {x : Exchange} {framing : Framing} {partitions todo : List Int}
    {ledger noted : List Position} (hfault : x.fault? d = none) (hstops : x.stops = false)
    (hx : x.subjects? = none) (hphase : stage.phase = .capturingWatermark)
    (hframing : stage.framing? = some framing) :
    Meets s d stage x (Stage.noteNext framing partitions ledger noted todo) := by
  cases todo <;> exact .on rfl hfault hstops (.stay hphase.symm hframing.symm hx)

/-- What a poll brings is decoded at once. -/
theorem meets_received (framing : Framing) (timeout : Nat) (polled : Polled) :
    Meets s ⟨s.envelope, framing⟩ (polling framing) ⟨.poll timeout, polled⟩
      (received s framing polled) := by
  cases polled with
  | record r =>
    rw [received, receive]
    cases hdecode : Decoder.decode ⟨s.envelope, framing⟩ r with
    | ok change => exact .on rfl (by simp only [Exchange.fault?, hdecode]) rfl (.stay rfl rfl rfl)
    | error e => exact .fault (by simp only [Exchange.fault?, hdecode]) rfl
  | tail => exact .on rfl rfl rfl (.stay rfl rfl rfl)
  | failed e => exact .fault rfl rfl
  | interrupted => exact .stop rfl rfl rfl

theorem meets (hask : stage.ask? s = some ask) (hopen : stage.outcome? = none)
    (hd : ∀ framing, stage.framing? = some framing → d = ⟨s.envelope, framing⟩)
    (reply : ask.request.Answer) : Meets s d stage ⟨ask.request, reply⟩ (ask.next reply) := by
  cases stage with
  | creatingTopic =>
    obtain rfl := Option.some.inj hask
    dsimp only
    split
    · exact .on rfl rfl rfl (.stay rfl rfl rfl)
    · exact .on rfl rfl rfl (.capture rfl rfl rfl rfl)
  | askingSubjects =>
    obtain rfl := Option.some.inj hask
    exact .on rfl rfl rfl (.capture rfl rfl rfl rfl)
  | startingClock framing =>
    obtain rfl := Option.some.inj hask
    exact .on rfl rfl rfl (.stay rfl rfl rfl)
  | queryingPartitions framing deadline =>
    obtain rfl := Option.some.inj hask
    cases reply with
    | ok partitions => cases partitions <;> exact .on rfl rfl rfl (.stay rfl rfl rfl)
    | error e => exact .fault rfl rfl
  | checkingClock framing deadline =>
    obtain rfl := Option.some.inj hask
    dsimp only
    split
    · next hlate => exact .deserted rfl rfl hlate
    · exact .on rfl rfl rfl (.stay rfl rfl rfl)
  | retrying framing deadline =>
    obtain rfl := Option.some.inj hask
    exact .on rfl rfl rfl (.stay rfl rfl rfl)
  | readingLedger framing partitions =>
    obtain rfl := Option.some.inj hask
    cases reply with
    | ok rows => exact .noteNext rfl rfl rfl rfl rfl
    | error e => exact .fault rfl rfl
  | queryingWatermarks framing partitions ledger noted i todo =>
    obtain rfl := Option.some.inj hask
    cases reply with
    | ok w =>
      dsimp only [unlessBroker, note]
      split
      · exact .noteNext rfl rfl rfl rfl rfl
      · exact .on rfl rfl rfl (.stay rfl rfl rfl)
    | error e => exact .fault rfl rfl
  | seeding framing partitions ledger noted seed todo =>
    obtain rfl := Option.some.inj hask
    cases reply with
    | ok _ => exact .noteNext rfl rfl rfl rfl rfl
    | error e => exact .fault rfl rfl
  | settingWatermark framing partitions noted =>
    obtain rfl := Option.some.inj hask
    exact .on rfl rfl rfl (.enter .subscribe rfl rfl)
  | rereadingLedger framing partitions =>
    obtain rfl := Option.some.inj hask
    cases reply with
    | ok rows => exact .on rfl rfl rfl (.stay rfl rfl rfl)
    | error e => exact .fault rfl rfl
  | assigning framing starts =>
    obtain rfl := Option.some.inj hask
    cases reply with
    | ok _ => exact .on rfl rfl rfl (.enter .consume rfl rfl)
    | error e => exact .fault rfl rfl
  | checkingStop framing =>
    obtain rfl := Option.some.inj hask
    cases reply with
    | true => exact .stop rfl rfl rfl
    | false => exact .on rfl rfl rfl (.stay rfl rfl rfl)
  | polling framing =>
    obtain rfl := Option.some.inj hask
    obtain rfl := hd framing rfl
    exact meets_received framing _ reply
  | applying framing place change =>
    obtain rfl := Option.some.inj hask
    cases reply with
    | ok _ => exact .on rfl rfl rfl (.stay rfl rfl rfl)
    | error e => exact .fault rfl rfl
  | recording framing place =>
    obtain rfl := Option.some.inj hask
    cases reply with
    | ok _ => exact .on rfl rfl rfl (.stay rfl rfl rfl)
    | error e => exact .fault rfl rfl
  | checkingLatch framing =>
    obtain rfl := Option.some.inj hask
    cases reply with
    | true => exact .on rfl rfl rfl (.stay rfl rfl rfl)
    | false => exact .on rfl rfl rfl (.stay rfl rfl rfl)
  | evaluating framing =>
    obtain rfl := Option.some.inj hask
    cases reply with
    | ok _ => exact .on rfl rfl rfl (.stay rfl rfl rfl)
    | error e => exact .fault rfl rfl
  | resting framing =>
    obtain rfl := Option.some.inj hask
    cases reply with
    | true => exact .on rfl rfl rfl (.stay rfl rfl rfl)
    | false => exact .stop rfl rfl rfl
  | closing outcome => cases hopen
  | finished outcome => cases hopen

end Stage

/-- A phase is entered when it is another than before. -/
theorem Phase.Entered.next {s : Settings} {d : Decoder} {stage next : Stage} {x : Exchange}
    {phases : List Phase} (h : Entered stage phases) (hopen : stage.outcome? = none)
    (hmeets : stage.Meets s d x next) (hon : stage.Onward s x next) :
    Entered next (if next.phase = stage.phase then phases else phases ++ [next.phase]) := by
  have hclosing : ∀ outcome, (Stage.closing outcome).phase ≠ stage.phase :=
    fun _ => (Leads.close (Stage.phase_mem_course hopen)).ne
  obtain rfl : phases = upTo stage.phase := by
    cases h with
    | going => rfl
    | closing => cases hopen
    | finished => cases hopen
  cases hmeets with
  | on hnext =>
    rcases hon.phase with hsame | hleads
    · rw [if_pos hsame, ← hsame]
      exact .going hnext
    · rw [if_neg hleads.ne, ← hleads.upTo (Stage.phase_mem_course hnext)]
      exact .going hnext
  | fault =>
    rw [if_neg (hclosing _)]
    exact .closing nofun
  | stop _ _ hconsuming =>
    rw [if_neg (hclosing _)]
    exact .closing fun _ => hconsuming
  | deserted =>
    rw [if_neg (hclosing _)]
    exact .closing nofun

theorem Phase.Entered.exists_course {stage : Stage} {phases : List Phase}
    (h : Entered stage phases) :
    ∃ entered, entered ≠ [] ∧ entered <+: course ∧ phases = entered ++ stage.farewell ∧
      (stage.outcome? = some (.ok ()) → entered = course) := by
  cases h with
  | going hopen =>
    refine ⟨upTo stage.phase, upTo_ne_nil _, upTo_prefix _, ?_, fun hok => ?_⟩
    · cases stage <;> first | exact (List.append_nil _).symm | cases hopen
    · rw [hopen] at hok
      cases hok
  | @closing p _ hok =>
    refine ⟨upTo p, upTo_ne_nil _, upTo_prefix _, rfl, fun h => ?_⟩
    rw [hok (Option.some.inj h)]
    rfl
  | @finished p _ hok =>
    refine ⟨upTo p, upTo_ne_nil _, upTo_prefix _, rfl, fun h => ?_⟩
    rw [hok (Option.some.inj h)]
    rfl

end KeyedLog.Replay
