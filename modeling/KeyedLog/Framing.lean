import KeyedLog.Text.Hex

/-!
# Schema frames

Producers that serialize through a schema registry put a frame of five bytes in front of keys or
values. Whether a topic has such frames shows in the subjects the registry knows.
-/
namespace KeyedLog

/-- Which parts of a topic's records carry a frame. -/
structure Framing where
  key : Bool := false
  value : Bool := false
  deriving DecidableEq, Repr

namespace Framing

/-- The framing of a topic, by the subjects that are known. -/
def ofSubjects (topic : String) (subjects : List String) : Framing where
  key := subjects.contains (topic ++ "-key")
  value := subjects.contains (topic ++ "-value")

/-- The framing of a topic, if a registry is asked at all; one that cannot answer means none. -/
def detect {ε : Type} (topic : String) (answer : Option (Except ε (List String))) : Framing :=
  match answer with
  | some (.ok subjects) => ofSubjects topic subjects
  | _ => {}

/-- What follows the frame. -/
def strip? (payload : Bytes) : Option Bytes :=
  if payload.length < 5 then none else some (payload.drop 5)

end Framing

end KeyedLog
