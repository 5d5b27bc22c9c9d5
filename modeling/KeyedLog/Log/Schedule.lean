import KeyedLog.Log.Consumer

/-!
# Waiting on the log

A log together with a clock, in milliseconds, that advances only while somebody waits, and with
appends that are due at later moments.
-/
namespace KeyedLog

/-- An append that is due at a moment. -/
structure Due where
  moment : Nat
  topic : String
  record : Outgoing
  deriving DecidableEq, Repr

structure Schedule where
  log : Log
  now : Nat := 0
  /-- The appends to come, the next one first. -/
  due : List Due := []
  deriving Repr

namespace Schedule

/-- Plan an append, after those due at the same moment. -/
def plan (s : Schedule) (d : Due) : Schedule :=
  let (before, after) := s.due.span fun e => e.moment ≤ d.moment
  { s with due := before ++ d :: after }

/-- Let the clock run up to a moment, making the appends due before it until `stop` holds. The
appends made are the ones of the list given, in order. -/
def waitUntil (deadline : Nat) (stop : Log → Bool) (log : Log) (now : Nat) :
    List Due → Schedule
  | [] => { log := log, now := max now deadline }
  | d :: rest =>
    if d.moment < deadline then
      let log := (log.append d.topic d.record).2
      let now := max now d.moment
      if stop log then { log := log, now := now, due := rest }
      else waitUntil deadline stop log now rest
    else { log := log, now := max now deadline, due := d :: rest }

/-- Wait for a time whatever happens. -/
def pause (s : Schedule) (time : Nat) : Schedule :=
  waitUntil (s.now + time) (fun _ => false) s.log s.now s.due

/-- Poll: deliver what is there at once, else wait for it at most `timeout`. -/
def poll (s : Schedule) (c : Consumer) (timeout : Nat) :
    Except BrokerError (Option Record × Consumer × Schedule) :=
  if c.closed then .error .closed
  else
    match c.next? s.log with
    | some (record, c) => .ok (some record, c, s)
    | none =>
      let s := waitUntil (s.now + timeout) (fun log => (c.next? log).isSome) s.log s.now s.due
      match c.next? s.log with
      | some (record, c) => .ok (some record, c, s)
      | none => .ok (none, c, s)

end Schedule

end KeyedLog
