import KeyedLog.Http.Exchange
import KeyedLog.Http.Status

/-!
# Messages on the wire

Calls and responses as bytes, and requests out of the bytes that have come in so far.
-/
namespace KeyedLog.Http

/-- A line with its end. -/
def line (text : String) : Bytes := Utf8.encode text ++ [0x0d, 0x0a]

def headerLine (name value : String) : Bytes := line (name ++ ": " ++ value)

def Call.bytes (c : Call) : Bytes :=
  line c.requestLine ++ (c.headers.flatMap fun (name, value) => headerLine name value) ++ line ""

/-- A response after which the connection is closed. -/
def Response.bytes (r : Response) : Bytes :=
  let body := Utf8.encode (r.body.getD "")
  let optional (name : String) (value : Option String) : Bytes :=
    (value.map (headerLine name)).getD []
  line ("HTTP/1.1 " ++ Status.text r.status) ++ optional "content-type" r.contentType ++
    optional "x-correlation-id" r.correlation ++ optional "allow" r.allow ++
    headerLine "content-length" (Decimal.ofNat body.length) ++ headerLine "connection" "close" ++
    line "" ++ body

/-- What has come in so far. -/
inductive Received where
  | incomplete
  | malformed
  | request (r : Request)
  deriving DecidableEq, Repr

/-- A request line as a method and a path. -/
def requestLine? (line : Bytes) : Option (String × String) := do
  let text ← visible? line
  match Text.split ' ' text with
  | [method, path, version] =>
    if version = "HTTP/1.1" ∨ version = "HTTP/1.0" then some (method, path) else none
  | _ => none

/-- The length of the body of a request: without a length there is none. -/
def bodyLength? (fields : List (String × Bytes)) : Option Nat :=
  match values "content-length" fields with
  | [] => if values "transfer-encoding" fields = [] then some 0 else none
  | lengths => agreedLength? lengths

def Received.ofBytes (bytes : Bytes) : Received :=
  match headLines? [] (skipEmptyLines bytes) with
  | none => .incomplete
  | some ([], _) => .malformed
  | some (first :: lines, rest) =>
    match requestLine? first, fields? lines with
    | some (method, path), some fields =>
      match bodyLength? fields with
      | none => .malformed
      | some n =>
        if rest.length < n then .incomplete else .request ⟨method, path, fields, rest.take n⟩
    | _, _ => .malformed

end KeyedLog.Http
