import KeyedLog.Text.Blank
import KeyedLog.Text.Utf8

/-!
# Requests and answers

The parts of HTTP messages that the routes look at and set.
-/
namespace KeyedLog.Http

structure Request where
  method : String
  path : String
  headers : List (String × Bytes) := []
  body : Bytes := []
  deriving DecidableEq, Repr

structure Response where
  status : Nat
  correlation : Option String := none
  contentType : Option String := none
  allow : Option String := none
  /-- The text, where it is not left to whoever words the refusal. -/
  body : Option String := some ""
  deriving DecidableEq, Repr

/-- The first value of a header; the case of its name does not matter. -/
def Request.header? (r : Request) (name : String) : Option Bytes :=
  (r.headers.find? fun (n, _) => Text.lower n == Text.lower name).map Prod.snd

/-- A header value as text, if all of it is visible. -/
def visible? (value : Bytes) : Option String :=
  if value.all fun b => (0x20 ≤ b && b < 0x7f) || b == 0x09 then Utf8.decode? value else none

/-- Whether a text can be sent as a header value. -/
def isHeaderValue (text : String) : Bool :=
  (Utf8.encode text).all fun b => (0x20 ≤ b && b ≠ 0x7f) || b == 0x09

/-- The path without a query or fragment. -/
def Request.route (r : Request) : String :=
  String.ofList (r.path.toList.takeWhile fun c => c ≠ '?' && c ≠ '#')

namespace Response

def plainText : String := "text/plain; charset=utf-8"

/-- A plain text answer. -/
def plain (status : Nat) (body : String) : Response :=
  { status := status, contentType := some plainText, body := some body }

/-- A plain text answer with a correlation id, which is left out if it is no header value. -/
def correlated (correlation : String) (status : Nat) (body : String) : Response :=
  { plain status body with
    correlation := if isHeaderValue correlation then some correlation else none }

/-- The answer to a body that cannot be read as what it should be. -/
def refusal (status : Nat) : Response :=
  { status := status, contentType := some plainText, body := none }

def notFound : Response := { status := 404 }

def methodNotAllowed (allow : String) : Response := { status := 405, allow := some allow }

end Response

end KeyedLog.Http
