import KeyedLog.Correlation
import KeyedLog.Envelope
import KeyedLog.Log.Basic

/-!
# Publishing

The way onto the log: headers, key and value are sealed, and the record is handed to the log. A
publisher that is shut down takes no more records, and what is buffered is flushed once.
-/
namespace KeyedLog

inductive PublishError where
  | crypto (correlation : String) (cause : CryptoError)
  | broker (correlation : String) (cause : BrokerError)
  | shutDown
  deriving DecidableEq, Repr

def PublishError.message : PublishError → String
  | .crypto correlation cause => "cannot encrypt record " ++ correlation ++ ": " ++ cause.message
  | .broker correlation cause =>
    "broker rejected record " ++ correlation ++ ": " ++ cause.message
  | .shutDown => "publisher is shut down"

/-- What is to be published: a new value for a key, or none to remove it. -/
structure Message where
  key : Bytes
  value : Option Bytes
  headers : List Header
  correlation : String
  deriving DecidableEq, Repr

namespace Message

/-- The headers with the correlation id, which is added unless one is given. -/
def allHeaders (m : Message) : List Header :=
  if m.headers.any (·.1 == Correlation.headerName) then m.headers
  else m.headers ++ [(Correlation.headerName, Utf8.encode m.correlation)]

/-- Seal headers, drawing two initial blocks for each from the `n`-th on. -/
def sealHeaders (e : Envelope) (blocks : Nat → Aes.Draw) :
    Nat → List Header → Except CryptoError (List Header)
  | _, [] => .ok []
  | n, (name, value) :: rest =>
    match e.sealedName (blocks n) name with
    | .error fault => .error fault
    | .ok name =>
      match e.sealedValue (blocks (n + 1)) value with
      | .error fault => .error fault
      | .ok value => (sealHeaders e blocks (n + 2) rest).map ((name, value) :: ·)

/-- How many initial blocks a sealed message takes: one for each part of it. -/
def draws (m : Message) : Nat := 2 * m.allHeaders.length + 1 + m.value.toList.length

/-- The record of a message: first the headers are sealed, then the key, then the value. -/
def sealWith (m : Message) (e : Envelope) (blocks : Nat → Aes.Draw) :
    Except CryptoError Outgoing :=
  let n := 2 * m.allHeaders.length
  match sealHeaders e blocks 0 m.allHeaders with
  | .error fault => .error fault
  | .ok headers =>
    match e.sealed (blocks n) m.key with
    | .error fault => .error fault
    | .ok key =>
      match m.value with
      | none => .ok ⟨key, none, headers⟩
      | some value =>
        (e.sealed (blocks (n + 1)) value).map fun value => ⟨key, some value, headers⟩

end Message

structure Publisher where
  topic : String
  envelope : Envelope
  down : Bool := false
  /-- How often the buffered records were flushed. -/
  flushes : Nat := 0
  /-- Whether a flush is refused. -/
  flushFails : Bool := false
  deriving DecidableEq, Repr

namespace Publisher

/-- Publish a message: the log with its record, or the reason there is none. -/
def publish (p : Publisher) (log : Log) (blocks : Nat → Aes.Draw) (m : Message) :
    Except PublishError Log :=
  if p.down then .error .shutDown
  else
    match m.sealWith p.envelope blocks with
    | .error fault => .error (.crypto m.correlation fault)
    | .ok record => (log.send p.topic record).mapError (.broker m.correlation)

def flush (p : Publisher) : Except BrokerError Unit × Publisher :=
  (if p.flushFails then .error (.flush "rejected") else .ok (), { p with flushes := p.flushes + 1 })

/-- Refuse further messages. Only the first time are records flushed. -/
def shutdown (p : Publisher) : Except BrokerError Unit × Publisher :=
  if p.down then (.ok (), p) else flush { p with down := true }

/-- Give the publisher up. It flushes unless it is shut down already. -/
def drop (p : Publisher) : Publisher := p.shutdown.2

end Publisher

end KeyedLog
