import KeyedLog.Proofs.Replay.Course
import Mathlib

/-!
# The pace of a run

How long it takes. A run that does not fail gets to consume within a number of requests that only
depends on the partitions it finds, and from there on it looks for an order to stop every few
requests.
-/
namespace KeyedLog.Replay

/-- Requests whose answers tell of an order to stop, and the one that begins the consuming. -/
def Request.looks : Request → Bool
  | assign _ _ => true
  | stopped => true
  | poll _ => true
  | rest _ => true
  | _ => false

/-- How many requests an answer adds to those before a run consumes: two for each partition that
shows, or three to ask again if there are none. -/
def Exchange.delay : Exchange → Nat
  | ⟨.partitions _, .ok []⟩ => 3
  | ⟨.partitions _, .ok partitions⟩ => 2 * partitions.length
  | _ => 0

/-- One of the last requests was a look for an order to stop. At most so many were made since. -/
def Watched (told : List Exchange) (since : Nat) : Prop :=
  ∃ before x after, told = before ++ x :: after ∧ after.length ≤ since ∧ x.request.looks

theorem Watched.concat {told : List Exchange} {since : Nat} (h : Watched told since)
    (x : Exchange) : Watched (told ++ [x]) (since + 1) := by
  obtain ⟨before, y, after, rfl, hlength, hlooks⟩ := h
  refine ⟨before, y, after ++ [x], by simp, ?_, hlooks⟩
  rw [List.length_append, List.length_singleton]
  omega

theorem Watched.mono {told : List Exchange} {since since' : Nat} (h : Watched told since)
    (hle : since ≤ since') : Watched told since' := by
  obtain ⟨before, x, after, htold, hlength, hlooks⟩ := h
  exact ⟨before, x, after, htold, Nat.le_trans hlength hle, hlooks⟩

theorem watched_of_looks {x : Exchange} (h : x.request.looks) (told : List Exchange)
    (since : Nat) : Watched (told ++ [x]) since :=
  ⟨told, x, [], rfl, Nat.zero_le _, h⟩

namespace Stage

/-- How many requests are ahead of a run until it consumes, if it does not fail and partitions show
as soon as it asks for them. Those that partitions add are not counted before they show. -/
def ahead : Stage → Nat
  | creatingTopic => 8
  | askingSubjects => 7
  | startingClock _ => 6
  | queryingPartitions _ _ => 5
  | checkingClock _ _ => 7
  | retrying _ _ => 6
  | readingLedger _ partitions => 2 * partitions.length + 4
  | queryingWatermarks _ _ _ _ _ todo => 2 * todo.length + 5
  | seeding _ _ _ _ _ todo => 2 * todo.length + 4
  | settingWatermark _ _ _ => 3
  | rereadingLedger _ _ => 2
  | assigning _ _ => 1
  | _ => 0

/-- How many requests a run that consumes has made, at most, since it looked for an order to
stop. -/
def behind : Stage → Nat
  | recording _ _ => 1
  | checkingLatch _ => 2
  | evaluating _ => 3
  | checkingStop _ => 4
  | _ => 0

variable {s : Settings} {stage : Stage} {ask : Ask} {told : List Exchange}

theorem behind_le (stage : Stage) : stage.behind ≤ 4 := by
  cases stage <;> simp [behind]

theorem ahead_noteNext (framing : Framing) (partitions todo : List Int)
    (ledger noted : List Position) :
    (noteNext framing partitions ledger noted todo).ahead = 2 * todo.length + 3 := by
  cases todo <;> rfl

theorem ahead_pos (hopen : stage.outcome? = none) (hphase : stage.phase ≠ .consuming) :
    0 < stage.ahead := by
  cases stage <;> simp [outcome?, phase, ahead] at hopen hphase ⊢

/-- Each request before a run consumes takes it nearer, but for what the answer adds. -/
theorem ahead_next (hask : stage.ask? s = some ask) (hopen : stage.outcome? = none)
    (hphase : stage.phase ≠ .consuming) (reply : ask.request.Answer) :
    (ask.next reply).ahead < stage.ahead + Exchange.delay ⟨ask.request, reply⟩ := by
  cases stage with
  | queryingPartitions framing deadline =>
    obtain rfl := Option.some.inj hask
    cases reply with
    | ok partitions =>
      cases partitions <;> simp only [unlessBroker, found, ahead, Exchange.delay] <;> omega
    | error e => exact Nat.succ_pos _
  | closing outcome => cases hopen
  | finished outcome => cases hopen
  | creatingTopic =>
    obtain rfl := Option.some.inj hask
    apply Nat.lt_add_right
    dsimp only
    split <;> simp [ahead]
  | askingSubjects =>
    obtain rfl := Option.some.inj hask
    exact Nat.lt_add_right _ (Nat.lt_succ_self 6)
  | startingClock framing =>
    obtain rfl := Option.some.inj hask
    exact Nat.lt_add_right _ (Nat.lt_succ_self 5)
  | checkingClock framing deadline =>
    obtain rfl := Option.some.inj hask
    apply Nat.lt_add_right
    dsimp only
    split <;> simp [ahead]
  | retrying framing deadline =>
    obtain rfl := Option.some.inj hask
    exact Nat.lt_add_right _ (Nat.lt_succ_self 5)
  | readingLedger framing partitions =>
    obtain rfl := Option.some.inj hask
    apply Nat.lt_add_right
    cases reply with
    | ok rows =>
      dsimp only [unlessState]
      rw [ahead_noteNext]
      exact Nat.lt_succ_self _
    | error e => exact Nat.succ_pos _
  | queryingWatermarks framing partitions ledger noted i todo =>
    obtain rfl := Option.some.inj hask
    apply Nat.lt_add_right
    cases reply with
    | ok w =>
      dsimp only [unlessBroker, note]
      split
      · rw [ahead_noteNext, ahead]
        omega
      · exact Nat.lt_succ_self _
    | error e => exact Nat.succ_pos _
  | seeding framing partitions ledger noted seed todo =>
    obtain rfl := Option.some.inj hask
    apply Nat.lt_add_right
    cases reply with
    | ok _ =>
      dsimp only [unlessState]
      rw [ahead_noteNext]
      exact Nat.lt_succ_self _
    | error e => exact Nat.succ_pos _
  | settingWatermark framing partitions noted =>
    obtain rfl := Option.some.inj hask
    exact Nat.lt_add_right _ (Nat.lt_succ_self 2)
  | rereadingLedger framing partitions =>
    obtain rfl := Option.some.inj hask
    apply Nat.lt_add_right
    cases reply with
    | ok rows => exact Nat.lt_succ_self 1
    | error e => exact Nat.succ_pos 1
  | assigning framing starts =>
    obtain rfl := Option.some.inj hask
    apply Nat.lt_add_right
    cases reply <;> exact Nat.lt_succ_self 0
  | _ => exact absurd rfl hphase

/-- Each request of a run that goes on to consume is a look for an order to stop, or is counted. -/
theorem looks_or_behind_next (hask : stage.ask? s = some ask) (reply : ask.request.Answer)
    (hnext : (ask.next reply).phase = .consuming)
    (hfrom : stage.phase = .consuming ∨ Phase.Leads stage.phase .consuming) :
    ask.request.looks ∨ stage.phase = .consuming ∧ stage.behind < (ask.next reply).behind := by
  cases stage with
  | rereadingLedger framing partitions =>
    obtain rfl := Option.some.inj hask
    cases reply <;> cases hnext
  | assigning framing starts =>
    obtain rfl := Option.some.inj hask
    exact .inl rfl
  | checkingStop framing =>
    obtain rfl := Option.some.inj hask
    exact .inl rfl
  | polling framing =>
    obtain rfl := Option.some.inj hask
    exact .inl rfl
  | resting framing =>
    obtain rfl := Option.some.inj hask
    exact .inl rfl
  | applying framing place change =>
    obtain rfl := Option.some.inj hask
    cases reply with
    | ok _ => exact .inr ⟨rfl, Nat.lt_succ_self 0⟩
    | error e => cases hnext
  | recording framing place =>
    obtain rfl := Option.some.inj hask
    cases reply with
    | ok _ => exact .inr ⟨rfl, Nat.lt_succ_self 1⟩
    | error e => cases hnext
  | checkingLatch framing =>
    obtain rfl := Option.some.inj hask
    cases reply <;> exact .inr ⟨rfl, by simp [behind]⟩
  | evaluating framing =>
    obtain rfl := Option.some.inj hask
    cases reply with
    | ok _ => exact .inr ⟨rfl, Nat.lt_succ_self 3⟩
    | error e => cases hnext
  | _ => rcases hfrom with hphase | hleads <;> contradiction

/-- How far a run is from consuming, and how long ago it has looked for an order to stop, when it
has been told so much. -/
structure Paced (told : List Exchange) (stage : Stage) : Prop where
  ahead : stage.phase ≠ .consuming →
    told.length + stage.ahead ≤ 8 + (told.map Exchange.delay).sum
  behind : stage.phase = .consuming → Watched told stage.behind

theorem Paced.next (h : stage.Paced told) (hask : stage.ask? s = some ask)
    (hopen : stage.outcome? = none) {reply : ask.request.Answer}
    (hon : stage.Onward s ⟨ask.request, reply⟩ (ask.next reply))
    (hnext : (ask.next reply).outcome? = none) :
    (ask.next reply).Paced (told ++ [⟨ask.request, reply⟩]) where
  ahead := by
    intro hphase
    have hbefore := hon.not_consuming hnext hphase
    have hahead := h.ahead hbefore
    have hless := ahead_next hask hopen hbefore reply
    rw [List.length_append, List.length_singleton, List.map_append, List.sum_append,
      List.map_singleton, List.sum_singleton]
    omega
  behind := by
    intro hphase
    have hfrom : stage.phase = .consuming ∨ Phase.Leads stage.phase .consuming :=
      hphase ▸ hon.phase.imp_left Eq.symm
    rcases looks_or_behind_next hask reply hphase hfrom with hlooks | ⟨hconsuming, hless⟩
    · exact watched_of_looks hlooks told _
    · exact ((h.behind hconsuming).concat _).mono hless

end Stage

end KeyedLog.Replay
