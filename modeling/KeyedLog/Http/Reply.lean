import KeyedLog.Http.Chunked
import KeyedLog.Http.Message
import KeyedLog.Text.Split

/-!
# Replies on the wire

The bytes that come back on a connection, read as the reply to a request. They are all there will
be, so what is not complete never will be.
-/
namespace KeyedLog.Http

/-! ## The end of the body -/

inductive BodyEnd where
  | length (n : Nat)
  | chunked
  /-- The body ends with the connection. -/
  | closing
  deriving DecidableEq, Repr

/-- The values of a header. -/
def values (name : String) (fields : List (String × Bytes)) : List Bytes :=
  (fields.filter fun (n, _) => Text.lower n == name).map Prod.snd

/-- Read a length, which is a number of at most 64 bits short of its two greatest values. -/
def length? (text : String) : Option Nat :=
  (Decimal.readPlain? (Text.trimChars text.toList)).filter (· ≤ Decimal.maxU64 - 2)

/-- The length that all values agree on; a value can be a list. -/
def agreedLength? (values : List Bytes) : Option Nat := do
  let texts ← values.mapM visible?
  match ← (texts.flatMap (Text.split ',')).mapM length? with
  | [] => none
  | n :: more => if more.all (· = n) then some n else none

/-- Whether the last of the codings named is the chunked one. -/
def isChunked (codings : List Bytes) : Bool :=
  match codings.getLast?.bind visible? with
  | none => false
  | some text => (Text.split ',' text).getLast?.any fun c => Text.lower (Text.trim c) == "chunked"

/-- How the body of a reply ends: some codes have none; then a transfer coding counts before a
length. -/
def bodyEnd? (version : Version) (status : Nat) (fields : List (String × Bytes)) :
    Option BodyEnd :=
  if status = 101 ∨ status = 204 ∨ status = 304 then some (.length 0)
  else
    match values "transfer-encoding" fields, values "content-length" fields with
    | [], [] => some .closing
    | [], lengths => (agreedLength? lengths).map .length
    | codings, _ =>
      if version = .http10 then none
      else if isChunked codings then some .chunked
      else some .closing

/-! ## Replies -/

structure Reply where
  status : Nat
  bodyEnd : BodyEnd
  /-- What came after the head. -/
  rest : Bytes
  deriving DecidableEq, Repr

/-- Whether a code only announces the reply that is to come. -/
def isInterim (status : Nat) : Bool := status < 200 && status != 101

/-- The first reply that is no announcement, of which there are at most so many. -/
def replyAfter? : (interim : Nat) → Bytes → Option Reply
  | interim, bytes =>
    match headLines? [] (skipEmptyLines bytes) with
    | none | some ([], _) => none
    | some (line :: lines, rest) =>
      match statusLine? line, fields? lines with
      | some (version, status), some fields =>
        if isInterim status then
          match interim with
          | 0 => none
          | interim + 1 => replyAfter? interim rest
        else (bodyEnd? version status fields).map fun ending => ⟨status, ending, rest⟩
      | _, _ => none

def Reply.ofBytes? (bytes : Bytes) : Option Reply := replyAfter? bytes.length bytes

/-- The body of a reply, if it is complete. -/
def Reply.body? (r : Reply) : Option Bytes :=
  match r.bodyEnd with
  | .length n => if n ≤ r.rest.length then some (r.rest.take n) else none
  | .chunked => Chunked.read? .start [] [] r.rest
  | .closing => some r.rest

end KeyedLog.Http
