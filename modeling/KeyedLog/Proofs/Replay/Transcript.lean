import KeyedLog.Proofs.Along
import KeyedLog.Replay.Basic

/-!
# What a run asks and is told

A run with the requests it has made, the answers it got, and the phases it has entered.
-/
namespace KeyedLog.Replay

/-- A request with its answer. -/
structure Exchange where
  request : Request
  reply : request.Answer

namespace Exchange

def clock (now : Nat) : Exchange := ⟨.clock, now⟩

def partitions (topic : String) (reply : Except BrokerError (List Int)) : Exchange :=
  ⟨.partitions topic, reply⟩

def ledger (reply : Except StateError (List Position)) : Exchange := ⟨.ledger, reply⟩

def watermarks (s : Settings) (partition : Int) (reply : Except BrokerError Watermarks) :
    Exchange :=
  ⟨.watermarks s.topic partition s.timing.watermark, reply⟩

def advance (row : Position) (reply : Except StateError Unit) : Exchange := ⟨.advance row, reply⟩

def setWatermark (rows : List Position) : Exchange := ⟨.setWatermark rows, ()⟩

def close (reply : Except BrokerError Unit) : Exchange := ⟨.close, reply⟩

/-- What the registry has answered. -/
def subjects? : Exchange → Option (Except BrokerError (List String))
  | ⟨.subjects, reply⟩ => some reply
  | _ => none

/-- What the clock has answered. -/
def clock? : Exchange → Option Nat
  | ⟨.clock, now⟩ => some now
  | _ => none

/-- The failure that a run ends with after an answer. There is none in a topic that cannot be
created, a registry that does not answer or a consumer that does not close. -/
def fault? (d : Decoder) : Exchange → Option ReplayError
  | ⟨.partitions _, .error e⟩ => some (.broker e)
  | ⟨.watermarks _ _ _, .error e⟩ => some (.broker e)
  | ⟨.ledger, .error e⟩ => some (.state e)
  | ⟨.advance _, .error e⟩ => some (.state e)
  | ⟨.assign _ _, .error e⟩ => some (.broker e)
  | ⟨.poll _, .failed e⟩ => some (.broker e)
  | ⟨.poll _, .record r⟩ =>
    match d.decode r with
    | .ok _ => none
    | .error e => some e
  | ⟨.apply _, .error e⟩ => some (.state e)
  | ⟨.ready, .error e⟩ => some (.state e)
  | _ => none

/-- The order to stop has come: the flag is up, or it was touched or given up while the run was
waiting. -/
def stops : Exchange → Bool
  | ⟨.stopped, flag⟩ => flag
  | ⟨.poll _, .interrupted⟩ => true
  | ⟨.rest _, passed⟩ => !passed
  | _ => false

theorem subjects?_of_fault {d : Decoder} {x : Exchange} {e : ReplayError}
    (h : x.fault? d = some e) : x.subjects? = none := by
  obtain ⟨request, reply⟩ := x
  cases request with
  | subjects => cases h
  | _ => rfl

theorem subjects?_of_stops {x : Exchange} (h : x.stops = true) : x.subjects? = none := by
  obtain ⟨request, reply⟩ := x
  cases request with
  | subjects => cases h
  | _ => rfl

end Exchange

/-- The decoder of a run, by what the registry has answered if it was asked. -/
def Settings.decoderAfter (s : Settings) (told : List Exchange) : Decoder :=
  ⟨s.envelope, Framing.detect s.topic (told.findSome? Exchange.subjects?)⟩

/-- A run with all that it has asked and been told, and the phases it has entered. -/
structure Chronicle (σ : Type) where
  stage : Stage
  world : σ
  told : List Exchange
  phases : List Phase

namespace Chronicle

variable {σ : Type}

def start (world : σ) : Chronicle σ := ⟨.initial, world, [], [Stage.initial.phase]⟩

/-- One more request. A phase is entered when it is another than before. -/
def next (s : Settings) (answer : Answering σ) (c : Chronicle σ) : Chronicle σ :=
  match c.stage.ask? s with
  | none => c
  | some ask =>
    let (reply, world) := answer c.world ask.request
    let stage := ask.next reply
    { stage := stage
      world := world
      told := c.told ++ [⟨ask.request, reply⟩]
      phases := if stage.phase = c.stage.phase then c.phases else c.phases ++ [stage.phase] }

/-- A run after a number of requests. -/
def upTo (s : Settings) (answer : Answering σ) (world : σ) : Nat → Chronicle σ
  | 0 => start world
  | n + 1 => (upTo s answer world n).next s answer

variable {s : Settings} {answer : Answering σ}

theorem step_eq (c : Chronicle σ) :
    step s answer c.stage c.world = ((c.next s answer).stage, (c.next s answer).world) := by
  rw [step, next]
  cases c.stage.ask? s <;> rfl

theorem steps_succ (n : Nat) (stage : Stage) (world : σ) : steps s answer (n + 1) stage world =
    step s answer (steps s answer n stage world).1 (steps s answer n stage world).2 := by
  induction n generalizing stage world with
  | zero => rfl
  | succ n ih => exact ih _ _

/-- The chronicle is that of the run. -/
theorem steps_eq (s : Settings) (answer : Answering σ) (world : σ) (n : Nat) :
    steps s answer n .initial world =
      ((upTo s answer world n).stage, (upTo s answer world n).world) := by
  induction n with
  | zero => rfl
  | succ n ih =>
    rw [steps_succ, ih, step_eq]
    rfl

end Chronicle

end KeyedLog.Replay
