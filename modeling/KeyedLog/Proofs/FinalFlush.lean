import KeyedLog.Proofs.Along
import KeyedLog.Publisher
import KeyedLog.Supply
import Mathlib.Logic.Function.Iterate

/-!
# The final flush

Calls on one publisher that take their steps in any order, and the publisher's end when all of them
are over. It flushes exactly once, and what is accepted is handed over exactly once. A record can
miss the flush all the same: the flag is looked at some steps before the record is handed over, and
the publisher may be shut down in between.
-/
namespace KeyedLog.Publisher

/-! ## Single steps -/

/-- How far a call that publishes has come. -/
inductive Publishing where
  | ready
  /-- It has found the flag unset. -/
  | admitted
  | sealed (record : Outgoing)
  | handed (outcome : Except BrokerError Unit)
  | ended (outcome : Except PublishError Unit)

/-- How far a call that shuts the publisher down has come. -/
inductive Stopping where
  | ready
  /-- It has set the flag. -/
  | first
  | flushing (outcome : Except BrokerError Unit)
  | ended (outcome : Except BrokerError Unit)

/-- Look at the flag, seal the message, hand the record over, return. -/
def Publishing.next (m : Message) (blocks : Nat → Aes.Draw) (p : Publisher) (log : Log) :
    Publishing → Publishing × Log
  | .ready => (if p.down then .ended (.error .shutDown) else .admitted, log)
  | .admitted =>
    match m.sealWith p.envelope blocks with
    | .error fault => (.ended (.error (.crypto m.correlation fault)), log)
    | .ok record => (.sealed record, log)
  | .sealed record =>
    match log.send p.topic record with
    | .error cause => (.handed (.error cause), log)
    | .ok log => (.handed (.ok ()), log)
  | .handed outcome => (.ended (outcome.mapError (.broker m.correlation)), log)
  | .ended outcome => (.ended outcome, log)

/-- Set the flag and, where it was unset, flush and return. -/
def Stopping.next (p : Publisher) : Stopping → Stopping × Publisher
  | .ready => if p.down then (.ended (.ok ()), p) else (.first, { p with down := true })
  | .first => (.flushing p.flush.1, p.flush.2)
  | .flushing outcome => (.ended outcome, p)
  | .ended outcome => (.ended outcome, p)

inductive Request where
  | publish (m : Message) (blocks : Nat → Aes.Draw)
  | shutdown

inductive Call where
  | publish (m : Message) (blocks : Nat → Aes.Draw) (stage : Publishing)
  | shutdown (stage : Stopping)

inductive Event where
  | admitted (call : Nat)
  | handed (call : Nat) (record : Outgoing)
  /-- A flush begins. -/
  | flush
  deriving DecidableEq, Repr

namespace Event

def call? : Event → Option Nat
  | .admitted call => some call
  | .handed call _ => some call
  | .flush => none

def send (topic : String) (log : Log) : Event → Log
  | .handed _ record => (log.send topic record).toOption.getD log
  | _ => log

end Event

namespace Call

def begin : Request → Call
  | .publish m blocks => .publish m blocks .ready
  | .shutdown => .shutdown .ready

def request : Call → Request
  | .publish m blocks _ => .publish m blocks
  | .shutdown _ => .shutdown

def next (p : Publisher) (log : Log) : Call → Call × Publisher × Log
  | .publish m blocks stage =>
    let (stage, log) := stage.next m blocks p log
    (.publish m blocks stage, p, log)
  | .shutdown stage =>
    let (stage, p) := stage.next p
    (.shutdown stage, p, log)

/-- What happens in the next step of call `i`. -/
def event? (i : Nat) (p : Publisher) : Call → Option Event
  | .publish _ _ .ready => if p.down then none else some (.admitted i)
  | .publish _ _ (.sealed record) => some (.handed i record)
  | .shutdown .first => some .flush
  | _ => none

/-- It has set the flag and has yet to flush. -/
def owes : Call → Bool
  | .shutdown .first => true
  | _ => false

def isOver : Call → Bool
  | .publish _ _ (.ended _) => true
  | .shutdown (.ended _) => true
  | _ => false

/-- The most steps that are left. -/
def left : Call → Nat
  | .publish _ _ .ready => 4
  | .publish _ _ .admitted => 3
  | .publish _ _ (.sealed _) => 2
  | .publish _ _ (.handed _) => 1
  | .publish _ _ (.ended _) => 0
  | .shutdown .ready => 3
  | .shutdown .first => 2
  | .shutdown (.flushing _) => 1
  | .shutdown (.ended _) => 0

variable {p : Publisher} {log : Log} {c : Call} {i : Nat}

theorem request_begin (r : Request) : (begin r).request = r := by
  cases r <;> rfl

theorem request_next : (c.next p log).1.request = c.request := by
  cases c <;> rfl

/-- A step changes neither the topic nor the envelope. -/
theorem kept_next :
    (c.next p log).2.1.topic = p.topic ∧ (c.next p log).2.1.envelope = p.envelope := by
  cases c with
  | publish m blocks stage => exact ⟨rfl, rfl⟩
  | shutdown stage =>
    cases stage with
    | ready => by_cases hdown : p.down <;> simp [next, Stopping.next, hdown]
    | _ => exact ⟨rfl, rfl⟩

theorem left_le : c.left ≤ 4 := by
  cases c with
  | publish m blocks stage => cases stage <;> simp [left]
  | shutdown stage => cases stage <;> simp [left]

theorem left_next : (c.next p log).1.left ≤ c.left - 1 := by
  cases c with
  | publish m blocks stage =>
    cases stage with
    | ready => by_cases hdown : p.down <;> simp [next, Publishing.next, left, hdown]
    | admitted => simp only [next, Publishing.next]; split <;> simp [left]
    | sealed record => simp only [next, Publishing.next]; split <;> simp [left]
    | _ => exact Nat.le_refl _
  | shutdown stage =>
    cases stage with
    | ready => by_cases hdown : p.down <;> simp [next, Stopping.next, left, hdown]
    | _ => exact Nat.le_refl _

theorem isOver_iff : c.isOver = true ↔ c.left = 0 := by
  cases c with
  | publish m blocks stage => cases stage <;> simp [isOver, left]
  | shutdown stage => cases stage <;> simp [isOver, left]

/-- A flush is owed from the step that sets the flag to the step that flushes. -/
theorem owes_next :
    (c.next p log).1.owes.toNat + (c.event? i p).toList.count .flush + p.down.toNat =
      c.owes.toNat + (c.next p log).2.1.down.toNat := by
  cases c with
  | publish m blocks stage =>
    cases stage with
    | ready => by_cases hdown : p.down <;> simp [next, event?, owes, hdown]
    | _ => simp [next, event?, owes]
  | shutdown stage =>
    cases stage with
    | ready => by_cases hdown : p.down <;> simp [next, Stopping.next, event?, owes, hdown]
    | _ => simp [next, Stopping.next, event?, owes, flush]

theorem flushes_next :
    (c.next p log).2.1.flushes = p.flushes + (c.event? i p).toList.count .flush := by
  cases c with
  | publish m blocks stage =>
    cases stage with
    | ready => by_cases hdown : p.down <;> simp [next, event?, hdown]
    | _ => simp [next, event?]
  | shutdown stage =>
    cases stage with
    | ready => by_cases hdown : p.down <;> simp [next, Stopping.next, event?, hdown]
    | _ => simp [next, Stopping.next, event?, flush]

theorem log_next :
    (c.next p log).2.2 = (c.event? i p).toList.foldl (Event.send p.topic) log := by
  cases c with
  | publish m blocks stage =>
    cases stage with
    | ready => simp only [next, Publishing.next, event?]; split <;> rfl
    | admitted => simp only [next, Publishing.next, event?]; split <;> rfl
    | sealed record =>
      simp only [next, Publishing.next, event?, Option.toList_some, List.foldl_cons, List.foldl_nil,
        Event.send]
      cases log.send p.topic record <;> rfl
    | _ => rfl
  | shutdown stage => cases stage <;> rfl

theorem call?_of_event? {e : Event} (h : c.event? i p = some e) :
    e = .flush ∨ e.call? = some i := by
  cases c with
  | publish m blocks stage =>
    cases stage with
    | ready =>
      rw [event?] at h
      split at h
      · cases h
      · cases h
        exact .inr rfl
    | sealed record => cases h; exact .inr rfl
    | _ => cases h
  | shutdown stage =>
    cases stage with
    | first => cases h; exact .inl rfl
    | _ => cases h

theorem down_of_admitted {k : Nat} (h : c.event? i p = some (.admitted k)) : p.down = false := by
  cases c with
  | publish m blocks stage =>
    cases stage with
    | ready =>
      simp only [event?] at h
      split at h
      · cases h
      · next hup => exact Bool.eq_false_iff.mpr hup
    | _ => cases h
  | shutdown stage => cases stage <;> cases h

theorem filter_event?_other {k : Nat} (h : i ≠ k) :
    (c.event? i p).toList.filter (·.call? == some k) = [] := by
  cases he : c.event? i p with
  | none => rfl
  | some e =>
    rcases call?_of_event? he with rfl | hcall
    · rfl
    · simp [hcall, h]

theorem filter_event?_publish {m : Message} {blocks : Nat → Aes.Draw} {stage : Publishing} :
    ((publish m blocks stage).event? i p).toList.filter (·.call? == some i) =
      ((publish m blocks stage).event? i p).toList := by
  cases stage with
  | ready => by_cases hdown : p.down <;> simp [event?, hdown, Event.call?]
  | sealed record => simp [event?, Event.call?]
  | _ => rfl

end Call

/-- What has happened in call `i` when it has come to a stage. -/
def Publishing.Told (i : Nat) (wrapped : Except CryptoError Outgoing) (own : List Event) :
    Publishing → Prop
  | .ready => own = []
  | .admitted => own = [.admitted i]
  | .sealed record => wrapped = .ok record ∧ own = [.admitted i]
  | .handed _ => ∃ record, wrapped = .ok record ∧ own = [.admitted i, .handed i record]
  | .ended (.ok ()) => ∃ record, wrapped = .ok record ∧ own = [.admitted i, .handed i record]
  | .ended (.error .shutDown) => own = []
  | .ended (.error (.crypto _ fault)) => wrapped = .error fault ∧ own = [.admitted i]
  | .ended (.error (.broker _ _)) =>
    ∃ record, wrapped = .ok record ∧ own = [.admitted i, .handed i record]

theorem Publishing.Told.next {i : Nat} {m : Message} {blocks : Nat → Aes.Draw} {p : Publisher}
    {log : Log} {own : List Event} {stage : Publishing}
    (h : stage.Told i (m.sealWith p.envelope blocks) own) :
    (stage.next m blocks p log).1.Told i (m.sealWith p.envelope blocks)
      (own ++ ((Call.publish m blocks stage).event? i p).toList) := by
  cases stage with
  | ready =>
    rw [Told] at h
    subst h
    by_cases hdown : p.down <;> simp [Publishing.next, Call.event?, hdown, Told]
  | admitted =>
    rw [Told] at h
    subst h
    cases hseal : m.sealWith p.envelope blocks with
    | error fault => simp [Publishing.next, Call.event?, hseal, Told]
    | ok record => simp [Publishing.next, Call.event?, hseal, Told]
  | sealed record =>
    obtain ⟨hseal, rfl⟩ := h
    cases hsend : log.send p.topic record with
    | error cause => simp [Publishing.next, Call.event?, hsend, hseal, Told]
    | ok log => simp [Publishing.next, Call.event?, hsend, hseal, Told]
  | handed outcome =>
    obtain ⟨record, hseal, rfl⟩ := h
    cases outcome with
    | error cause => simp [Publishing.next, Call.event?, Except.mapError, hseal, Told]
    | ok _ => simp [Publishing.next, Call.event?, Except.mapError, hseal, Told]
  | ended outcome => simpa [Publishing.next, Call.event?] using h

/-! ## Any order -/

/-- Calls on one publisher, and what has happened so far. -/
structure Shared where
  publisher : Publisher
  log : Log
  calls : List Call
  told : List Event

namespace Shared

def start (p : Publisher) (log : Log) (requests : List Request) : Shared :=
  ⟨p, log, requests.map Call.begin, []⟩

/-- Call `i` takes its next step. -/
def step (s : Shared) (i : Nat) : Shared :=
  match s.calls[i]? with
  | none => s
  | some c =>
    let after := c.next s.publisher s.log
    ⟨after.2.1, after.2.2, s.calls.set i after.1, s.told ++ (c.event? i s.publisher).toList⟩

theorem step_of_call {s : Shared} {i : Nat} {c : Call} (h : s.calls[i]? = some c) :
    s.step i = ⟨(c.next s.publisher s.log).2.1, (c.next s.publisher s.log).2.2,
      s.calls.set i (c.next s.publisher s.log).1,
      s.told ++ (c.event? i s.publisher).toList⟩ := by
  rw [step, h]

theorem step_of_none {s : Shared} {i : Nat} (h : s.calls[i]? = none) : s.step i = s := by
  rw [step, h]

/-- The calls take their steps in the order in which they are named. -/
def run (s : Shared) (order : List Nat) : Shared := order.foldl step s

theorem run_concat (s : Shared) (order : List Nat) (i : Nat) :
    s.run (order ++ [i]) = (s.run order).step i := by
  rw [run, List.foldl_append]
  rfl

def Ended (s : Shared) : Prop := ∀ c ∈ s.calls, c.isOver = true

instance (s : Shared) : Decidable s.Ended := inferInstanceAs (Decidable (∀ c ∈ s.calls, _))

/-- The publisher is given up. -/
def dropped (s : Shared) : Shared :=
  { s with
    publisher := s.publisher.drop
    told := if s.publisher.down then s.told else s.told ++ [.flush] }

/-- What has happened in call `i`. -/
def own (s : Shared) (i : Nat) : List Event := s.told.filter (·.call? == some i)

/-- Call `i` has published a message, and was told so. -/
def Accepted (s : Shared) (i : Nat) (m : Message) (blocks : Nat → Aes.Draw) : Prop :=
  s.calls[i]? = some (.publish m blocks (.ended (.ok ())))

/-! ## What every order keeps -/

/-- What holds of calls on a publisher that was up, however their steps have followed each other. -/
structure Sound (p : Publisher) (log : Log) (requests : List Request) (s : Shared) : Prop where
  requests : s.calls.map Call.request = requests
  envelope : s.publisher.envelope = p.envelope
  topic : s.publisher.topic = p.topic
  log : s.log = s.told.foldl (Event.send p.topic) log
  flushes : s.publisher.flushes = p.flushes + s.told.count .flush
  owed : s.calls.countP Call.owes + s.told.count .flush = s.publisher.down.toNat
  ahead : Along (fun before e => ∀ i, e = .admitted i → .flush ∉ before) s.told
  own : ∀ {i : Nat} {m : Message} {blocks : Nat → Aes.Draw} {stage : Publishing},
    s.calls[i]? = some (.publish m blocks stage) →
      stage.Told i (m.sealWith p.envelope blocks) (s.own i)

variable {p : Publisher} {log : Log} {requests : List Request} {s : Shared}

theorem Sound.start (hup : p.down = false) : Sound p log requests (start p log requests) where
  requests := by simp [Shared.start, Function.comp_def, Call.request_begin]
  envelope := rfl
  topic := rfl
  log := rfl
  flushes := rfl
  owed := by
    have hnone : (requests.map Call.begin).countP Call.owes = 0 := by
      rw [List.countP_eq_zero]
      simp only [List.mem_map]
      rintro _ ⟨r, -, rfl⟩
      cases r <;> simp [Call.begin, Call.owes]
    simp [Shared.start, hnone, hup]
  ahead := along_nil
  own := by
    intro i m blocks stage h
    simp only [Shared.start, List.getElem?_map, Option.map_eq_some_iff] at h
    obtain ⟨r, -, hr⟩ := h
    cases r with
    | publish m' blocks' => cases hr; rfl
    | shutdown => cases hr

/-- What is owed changes by what the one call owes that has taken a step. -/
theorem countP_owes_set {calls : List Call} {c : Call} {i : Nat} (h : calls[i]? = some c)
    (c' : Call) : (calls.set i c').countP Call.owes + c.owes.toNat =
      calls.countP Call.owes + c'.owes.toNat := by
  obtain ⟨hi, rfl⟩ := List.getElem?_eq_some_iff.mp h
  have hpos : calls[i].owes = true → 0 < calls.countP Call.owes := fun howes =>
    List.countP_pos_iff.mpr ⟨calls[i], List.getElem_mem hi, howes⟩
  rw [List.countP_set hi]
  cases hc : calls[i].owes with
  | false => cases hc' : c'.owes <;> simp
  | true =>
    have := hpos hc
    cases hc' : c'.owes <;> simp <;> omega

theorem Sound.step (h : Sound p log requests s) (i : Nat) : Sound p log requests (s.step i) := by
  cases hc : s.calls[i]? with
  | none => rwa [step_of_none hc]
  | some c =>
    obtain ⟨hi, -⟩ := List.getElem?_eq_some_iff.mp hc
    rw [step_of_call hc]
    constructor
    case requests =>
      obtain ⟨hi, rfl⟩ := List.getElem?_eq_some_iff.mp hc
      have hself := @List.set_getElem_self _ (s.calls.map Call.request) i (by simpa using hi)
      rw [List.getElem_map] at hself
      rw [List.map_set, Call.request_next, hself, h.requests]
    case envelope => exact Call.kept_next.2.trans h.envelope
    case topic => exact Call.kept_next.1.trans h.topic
    case log =>
      rw [List.foldl_append, ← h.log, ← h.topic]
      exact Call.log_next
    case flushes =>
      rw [List.count_append, ← Nat.add_assoc, ← h.flushes]
      exact Call.flushes_next
    case owed =>
      have howes := @Call.owes_next s.publisher s.log c i
      have hset := countP_owes_set hc (c.next s.publisher s.log).1
      have howed := h.owed
      rw [List.count_append]
      dsimp only at *
      omega
    case ahead =>
      cases he : c.event? i s.publisher with
      | none => simpa using h.ahead
      | some e =>
        refine h.ahead.concat ?_
        rintro k rfl hflush
        -- The flag is unset where a call is admitted, so no flush has begun or is owed.
        have howed := h.owed
        rw [Call.down_of_admitted he] at howed
        have := List.count_pos_iff.mpr hflush
        simp at howed
        omega
    case own =>
      intro k m blocks stage hk
      rw [Shared.own, List.filter_append]
      by_cases hik : i = k
      · subst hik
        rw [List.getElem?_set_self hi, Option.some.injEq] at hk
        cases c with
        | publish m blocks stage =>
          cases hk
          rw [Call.filter_event?_publish, ← h.envelope]
          exact Publishing.Told.next (h.envelope ▸ h.own hc)
        | shutdown stage => cases hk
      · rw [List.getElem?_set_ne hik] at hk
        rw [Call.filter_event?_other hik, List.append_nil]
        exact h.own hk

theorem Sound.run (h : Sound p log requests s) (order : List Nat) :
    Sound p log requests (s.run order) := by
  induction order using List.reverseRecOn with
  | nil => exact h
  | append_singleton order i ih =>
    rw [run_concat]
    exact ih.step i

/-! ## One call by itself -/

section Alone

variable {i : Nat} {m : Message} {blocks : Nat → Aes.Draw}

/-- What comes of a number of steps of one call that nothing comes between. -/
theorem run_replicate {c : Call} (h : s.calls[i]? = some c) (n : Nat) :
    let after := (fun a : Call × Publisher × Log => a.1.next a.2.1 a.2.2)^[n]
      (c, s.publisher, s.log)
    (s.run (List.replicate n i)).calls = s.calls.set i after.1 ∧
      (s.run (List.replicate n i)).publisher = after.2.1 ∧
      (s.run (List.replicate n i)).log = after.2.2 := by
  obtain ⟨hi, hget⟩ := List.getElem?_eq_some_iff.mp h
  induction n generalizing s c with
  | zero => exact ⟨by rw [← hget]; exact (List.set_getElem_self hi).symm, rfl, rfl⟩
  | succ n ih =>
    have hstep : (s.step i).calls[i]? = some (c.next s.publisher s.log).1 := by
      rw [step_of_call h, List.getElem?_set_self hi]
    obtain ⟨hlt, hnext⟩ := List.getElem?_eq_some_iff.mp hstep
    obtain ⟨hcalls, hpublisher, hlog⟩ := ih hstep hlt hnext
    rw [List.replicate_succ, Function.iterate_succ_apply]
    refine ⟨hcalls.trans ?_, hpublisher.trans ?_, hlog.trans ?_⟩
    · rw [step_of_call h, List.set_set]
    · rw [step_of_call h]
    · rw [step_of_call h]

/-- Four steps that nothing comes between are what publishing is as a whole. -/
theorem run_publish (h : s.calls[i]? = some (.publish m blocks .ready)) :
    let outcome := s.publisher.publish s.log blocks m
    let after := s.run (List.replicate 4 i)
    after.calls = s.calls.set i (.publish m blocks (.ended (outcome.map fun _ => ()))) ∧
      after.publisher = s.publisher ∧ after.log = outcome.toOption.getD s.log := by
  have hrun := run_replicate h 4
  by_cases hdown : s.publisher.down
  · simpa [Publisher.publish, Call.next, Publishing.next, hdown, Except.map, Except.toOption]
      using hrun
  · cases hseal : m.sealWith s.publisher.envelope blocks with
    | error fault =>
      simpa [Publisher.publish, Call.next, Publishing.next, hdown, hseal, Except.map,
        Except.toOption] using hrun
    | ok record =>
      cases hsend : s.log.send s.publisher.topic record with
      | error cause =>
        simpa [Publisher.publish, Call.next, Publishing.next, hdown, hseal, hsend,
          Except.mapError, Except.map, Except.toOption] using hrun
      | ok log =>
        simpa [Publisher.publish, Call.next, Publishing.next, hdown, hseal, hsend,
          Except.mapError, Except.map, Except.toOption] using hrun

/-- Three steps that nothing comes between are what shutting down is as a whole. -/
theorem run_shutdown (h : s.calls[i]? = some (.shutdown .ready)) :
    let after := s.run (List.replicate 3 i)
    after.calls = s.calls.set i (.shutdown (.ended s.publisher.shutdown.1)) ∧
      after.publisher = s.publisher.shutdown.2 ∧ after.log = s.log := by
  have hrun := run_replicate h 3
  by_cases hdown : s.publisher.down <;>
    simpa [Publisher.shutdown, Call.next, Stopping.next, hdown] using hrun

end Alone

/-! ## The end of all calls -/

theorem length_run (order : List Nat) : (s.run order).calls.length = s.calls.length := by
  induction order using List.reverseRecOn with
  | nil => rfl
  | append_singleton order i ih =>
    rw [run_concat, ← ih]
    cases hc : (s.run order).calls[i]? with
    | none => rw [step_of_none hc]
    | some c => rw [step_of_call hc, List.length_set]

theorem left_step {k i n : Nat} (hleft : ∀ c, s.calls[k]? = some c → c.left ≤ 4 - n) :
    ∀ c, (s.step i).calls[k]? = some c → c.left ≤ 4 - (n + [i].count k) := by
  intro c' hk
  cases hc : s.calls[i]? with
  | none =>
    rw [step_of_none hc] at hk
    have hne : i ≠ k := by
      rintro rfl
      rw [hc] at hk
      cases hk
    simpa [hne] using hleft c' hk
  | some c =>
    obtain ⟨hi, -⟩ := List.getElem?_eq_some_iff.mp hc
    rw [step_of_call hc] at hk
    by_cases hik : i = k
    · subst hik
      rw [List.getElem?_set_self hi, Option.some.injEq] at hk
      subst hk
      have hnext := @Call.left_next s.publisher s.log c
      have := hleft c hc
      rw [List.count_singleton_self]
      omega
    · rw [List.getElem?_set_ne hik] at hk
      simpa [hik] using hleft c' hk

theorem left_run (order : List Nat) (k : Nat) :
    ∀ c, (s.run order).calls[k]? = some c → c.left ≤ 4 - order.count k := by
  induction order using List.reverseRecOn with
  | nil => exact fun c _ => Call.left_le
  | append_singleton order i ih =>
    rw [run_concat, List.count_append]
    exact left_step ih

/-- In whatever order, four steps of a call are enough to end it. -/
theorem ended_run {order : List Nat} (h : ∀ i < s.calls.length, 4 ≤ order.count i) :
    (s.run order).Ended := by
  intro c hc
  obtain ⟨k, hk⟩ := List.mem_iff_getElem?.mp hc
  obtain ⟨hlt, -⟩ := List.getElem?_eq_some_iff.mp hk
  have hfour := h k (length_run order ▸ hlt)
  have hleft := left_run order k c hk
  rw [Call.isOver_iff]
  omega

/-- When all calls are over, no flush is owed any more. -/
theorem Sound.count_flush (h : Sound p log requests s) (hended : s.Ended) :
    s.told.count .flush = s.publisher.down.toNat := by
  have hnone : s.calls.countP Call.owes = 0 := by
    rw [List.countP_eq_zero]
    intro c hc howes
    have hover := hended c hc
    cases c with
    | publish m blocks stage => cases howes
    | shutdown stage =>
      cases stage with
      | first => cases hover
      | _ => cases howes
  rw [← h.owed, hnone, Nat.zero_add]

/-- The end of the publisher flushes if nothing else has. -/
theorem Sound.count_flush_dropped (h : Sound p log requests s) (hended : s.Ended) :
    s.dropped.told.count .flush = 1 := by
  have hcount := h.count_flush hended
  by_cases hdown : s.publisher.down <;> simpa [dropped, hdown] using hcount

theorem Sound.flushes_dropped (h : Sound p log requests s) (hended : s.Ended) :
    s.dropped.publisher.flushes = p.flushes + 1 := by
  have hcount := h.count_flush hended
  have hflushes := h.flushes
  by_cases hdown : s.publisher.down
  · simp [dropped, drop, shutdown, hdown] at *
    omega
  · simp [dropped, drop, shutdown, flush, hdown] at *
    omega

theorem own_dropped (i : Nat) : s.dropped.own i = s.own i := by
  by_cases hdown : s.publisher.down <;> simp [own, dropped, hdown, Event.call?]

theorem Sound.log_dropped (h : Sound p log requests s) :
    s.dropped.log = s.dropped.told.foldl (Event.send p.topic) log := by
  by_cases hdown : s.publisher.down <;> simpa [dropped, hdown, Event.send] using h.log

theorem Sound.ahead_dropped (h : Sound p log requests s) :
    Along (fun before e => ∀ i, e = .admitted i → .flush ∉ before) s.dropped.told := by
  by_cases hdown : s.publisher.down
  · simpa [dropped, hdown] using h.ahead
  · simp only [dropped, hdown]
    exact h.ahead.concat (fun i hi => by cases hi)

/-- Call `i` has been admitted and has not yet handed its record over. -/
def InFlight (before : List Event) (i : Nat) : Prop :=
  .admitted i ∈ before ∧ ∀ record, .handed i record ∉ before

/-- What has happened to a publisher that is given up, before its flush and after it. -/
structure FlushedOnce (p : Publisher) (log : Log) (requests : List Request) (s : Shared)
    (before after : List Event) : Prop where
  told : s.dropped.told = before ++ .flush :: after
  once : .flush ∉ before ∧ .flush ∉ after
  flushes : s.dropped.publisher.flushes = p.flushes + 1
  /-- The log holds what was handed over. -/
  log : s.dropped.log = s.dropped.told.foldl (Event.send p.topic) log
  /-- What is accepted was admitted before the flush and handed over once. It was handed over before
  the flush, too, unless its call was in flight then. -/
  accepted : ∀ i m blocks, s.Accepted i m blocks →
    requests[i]? = some (.publish m blocks) ∧
      ∃ record, m.sealWith p.envelope blocks = .ok record ∧
        s.dropped.own i = [.admitted i, .handed i record] ∧ .admitted i ∈ before ∧
        (.handed i record ∈ before ↔ ¬InFlight before i)
  /-- Nothing comes after the flush at the publisher's end. -/
  last : s.publisher.down = false → after = []

theorem Sound.accepted (h : Sound p log requests s) {i : Nat} {m : Message}
    {blocks : Nat → Aes.Draw} (haccepted : s.Accepted i m blocks) {before after : List Event}
    (htold : s.dropped.told = before ++ .flush :: after) :
    requests[i]? = some (.publish m blocks) ∧
      ∃ record, m.sealWith p.envelope blocks = .ok record ∧
        s.dropped.own i = [.admitted i, .handed i record] ∧ .admitted i ∈ before ∧
        (.handed i record ∈ before ↔ ¬InFlight before i) := by
  obtain ⟨record, hseal, hown⟩ := h.own haccepted
  have hrequest : requests[i]? = some (.publish m blocks) := by
    rw [← h.requests, List.getElem?_map, haccepted]
    rfl
  refine ⟨hrequest, record, hseal, (own_dropped i).trans hown, ?_⟩
  have hmem : ∀ e ∈ [Event.admitted i, .handed i record], e ∈ before ++ .flush :: after := by
    intro e he
    rw [← hown, ← own_dropped, Shared.own, htold] at he
    exact (List.mem_filter.mp he).1
  have hhanded : ∀ other, .handed i other ∈ before → other = record := by
    intro other hother
    have : Event.handed i other ∈ s.dropped.own i := by
      rw [Shared.own, htold, List.mem_filter]
      exact ⟨List.mem_append_left _ hother, by simp [Event.call?]⟩
    rw [own_dropped, hown] at this
    simpa using this
  have hadmitted : .admitted i ∈ before := by
    rcases List.mem_append.mp (hmem (.admitted i) (by simp)) with hbefore | hafter
    · exact hbefore
    · -- No call is admitted after a flush.
      have hrest : .admitted i ∈ after := (List.mem_cons.mp hafter).resolve_left nofun
      obtain ⟨middle, rest, rfl⟩ := List.append_of_mem hrest
      refine absurd ?_ (h.ahead_dropped (before ++ .flush :: middle) (.admitted i) rest ?_ i rfl)
      · simp
      · simp [htold]
  refine ⟨hadmitted, fun hbefore hflight => hflight.2 record hbefore, fun hnot => ?_⟩
  by_contra hlate
  exact hnot ⟨hadmitted, fun other hother => hlate (hhanded other hother ▸ hother)⟩

theorem Sound.flushed (h : Sound p log requests s) (hended : s.Ended) :
    ∃ before after, FlushedOnce p log requests s before after := by
  have hone := h.count_flush_dropped hended
  obtain ⟨before, after, htold⟩ : ∃ before after, s.dropped.told = before ++ .flush :: after :=
    List.append_of_mem (List.count_pos_iff.mp (by omega))
  have honce : .flush ∉ before ∧ .flush ∉ after := by
    rw [htold, List.count_append, List.count_cons_self] at hone
    constructor
    · exact List.count_eq_zero.mp (by omega)
    · exact List.count_eq_zero.mp (by omega)
  refine ⟨before, after, htold, honce, h.flushes_dropped hended, h.log_dropped,
    fun i m blocks haccepted => h.accepted haccepted htold, ?_⟩
  intro hdown
  rw [dropped, hdown] at htold
  rcases append_cons_eq_concat_iff.mp htold.symm with ⟨hnil, -⟩ | ⟨rest, hrest, -⟩
  · exact hnil
  · exact absurd (by simp [hrest]) honce.2

/-- In whatever order calls take their steps until all are over, the publisher is flushed once, and
what is accepted is handed over once: before the flush, unless it was in flight when that began. -/
theorem flushed_once {order : List Nat} (hup : p.down = false)
    (hended : ((start p log requests).run order).Ended) :
    ∃ before after, FlushedOnce p log requests ((start p log requests).run order) before after := by
  have h : Sound p log requests ((start p log requests).run order) := (Sound.start hup).run order
  exact h.flushed hended

/-- Five calls: the publisher is shut down, twice, while one of the messages is on its way. -/
theorem flushed_once_crossed :
    let p : Publisher := ⟨"kv", .disabled, false, 0, false⟩
    let log := ((Log.empty 1).ensureTopic "kv").2
    let m : Message := ⟨[0x6b], some [0x76], [], "c"⟩
    let publish : Request := .publish m Supply.serial.blocks
    let requests := [publish, publish, .shutdown, .shutdown, publish]
    let s := (start p log requests).run [0, 1, 0, 0, 0, 2, 3, 2, 1, 1, 4, 1, 2]
    p.down = false ∧ s.Ended ∧ ∃ before after, FlushedOnce p log requests s before after :=
  ⟨rfl, by decide, flushed_once rfl (by decide)⟩

/-- Its call was admitted, the publisher was shut down, and only then was the record handed over: it
is accepted, and no flush follows. -/
theorem accepted_after_flush :
    let log := ((Log.empty 1).ensureTopic "kv").2
    let m : Message := ⟨[0x6b], some [0x76], [], "c"⟩
    let requests : List Request := [.publish m Supply.serial.blocks, .shutdown]
    let s := (start ⟨"kv", .disabled, false, 0, false⟩ log requests).run [0, 1, 1, 1, 0, 0, 0]
    s.Ended ∧ s.Accepted 0 m Supply.serial.blocks ∧
      s.dropped.told = [.admitted 0, .flush,
        .handed 0 ⟨[0x6b], some [0x76], [("Correlation-Id", [0x63])]⟩] ∧
      ¬∀ before after, s.dropped.told = before ++ .flush :: after →
        ∀ i m blocks, s.Accepted i m blocks → ∃ record, .handed i record ∈ before := by
  intro log m requests s
  have htold : s.dropped.told = [.admitted 0, .flush,
      .handed 0 ⟨[0x6b], some [0x76], [("Correlation-Id", [0x63])]⟩] := by decide
  have haccepted : s.Accepted 0 m Supply.serial.blocks := rfl
  refine ⟨by decide, haccepted, htold, fun hclaim => ?_⟩
  obtain ⟨record, hrecord⟩ := hclaim [.admitted 0] _ htold 0 m _ haccepted
  simp at hrecord

end Shared

end KeyedLog.Publisher
