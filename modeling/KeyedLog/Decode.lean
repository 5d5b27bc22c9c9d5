import KeyedLog.Correlation
import KeyedLog.Envelope
import KeyedLog.Framing
import KeyedLog.Log.Error
import KeyedLog.Position
import KeyedLog.Record
import KeyedLog.Store.Error

/-!
# Decoding records

A record off the log becomes a change of the state: frames are stripped and the envelope is
opened. Headers only serve to trace, so one that does not open is passed over.
-/
namespace KeyedLog

/-- The two parts of a record that are sealed. -/
inductive Part where
  | key
  | value
  deriving DecidableEq, Repr

def Part.name : Part → String
  | .key => "key"
  | .value => "value"

/-- Why a replay ends. -/
inductive ReplayError where
  | broker (cause : BrokerError)
  | state (cause : StateError)
  | decrypt (part : Part) (place : Position) (cause : CryptoError)
  | frame (part : Part) (place : Position)
  | noPartitions (topic : String)
  deriving DecidableEq, Repr

/-- How a record is named in messages. -/
def Position.label (p : Position) : String :=
  p.topic ++ "/" ++ Decimal.ofInt p.partition ++ "@" ++ Decimal.ofInt p.offset

def ReplayError.message : ReplayError → String
  | .broker cause => "broker error: " ++ cause.message
  | .state cause => "state store error: " ++ cause.message
  | .decrypt part place cause =>
    "cannot decrypt " ++ part.name ++ " of record " ++ place.label ++ ": " ++ cause.message
  | .frame part place =>
    part.name ++ " of record " ++ place.label ++ " is shorter than its schema frame"
  | .noPartitions topic => "topic " ++ topic ++ " has no partitions"

/-- A change of the state: a key gets a value, or none. -/
structure Change where
  key : Bytes
  value : Option Bytes
  correlation : String
  deriving DecidableEq, Repr

def Record.place (r : Record) : Position := ⟨r.topic, r.partition, r.offset⟩

/-- How records of a topic are decoded. -/
structure Decoder where
  envelope : Envelope
  framing : Framing
  deriving DecidableEq, Repr

namespace Decoder

def openPart (d : Decoder) (part : Part) (place : Position) (framed : Bool) (payload : Bytes) :
    Except ReplayError Bytes :=
  match if framed then Framing.strip? payload else some payload with
  | none => .error (.frame part place)
  | some body => (d.envelope.opened body).mapError (.decrypt part place)

/-- A header with both its parts opened. -/
def openHeader? (e : Envelope) (h : Header) : Option Header :=
  match e.openedName h.1, e.openedValue h.2 with
  | .ok name, .ok value => some (name, value)
  | _, _ => none

/-- The value of the last header that opens and is named as the correlation id's. -/
def correlation (e : Envelope) (headers : List Header) : String :=
  match ((headers.filterMap (openHeader? e)).filter (·.1 == Correlation.headerName)).getLast? with
  | some (_, value) => Utf8.lossy value
  | none => ""

def openValue (d : Decoder) (r : Record) : Except ReplayError (Option Bytes) :=
  match r.value with
  | none => .ok none
  | some value => (d.openPart .value r.place d.framing.value value).map some

def decode (d : Decoder) (r : Record) : Except ReplayError Change :=
  match d.openPart .key r.place d.framing.key r.key with
  | .error e => .error e
  | .ok key =>
    match d.openValue r with
    | .error e => .error e
    | .ok value => .ok ⟨key, value, correlation d.envelope r.headers⟩

end Decoder

end KeyedLog
