import KeyedLog.Http.MediaType
import KeyedLog.Text.Hex
import KeyedLog.Text.Utf8

/-!
# The head of a reply

A status line and header lines, up to an empty line.
-/
namespace KeyedLog.Http

/-- The lines before an empty one, and what follows it, where the characters given are those of the
current line read so far, the last one first. A line ends with a line feed, which a carriage return
may precede. -/
def headLines? : (line : Bytes) → Bytes → Option (List Bytes × Bytes)
  | _, [] => none
  | line, b :: rest =>
    if b = 0x0a then
      let line := match line with
        | 0x0d :: line => line
        | line => line
      if line = [] then some ([], rest)
      else (headLines? [] rest).map fun (lines, rest) => (line.reverse :: lines, rest)
    else headLines? (b :: line) rest

/-- Skip empty lines. -/
def skipEmptyLines : Bytes → Bytes
  | 0x0a :: rest => skipEmptyLines rest
  | 0x0d :: 0x0a :: rest => skipEmptyLines rest
  | bytes => bytes

/-- The bytes of header values and phrases. -/
def isTextByte (b : UInt8) : Bool := b == 0x09 || (0x20 ≤ b && b ≠ 0x7f)

def isTokenByte (b : UInt8) : Bool := b < 0x80 && isToken (Char.ofNat b.toNat)

def isSpace (b : UInt8) : Bool := b == 0x20 || b == 0x09

/-- A header line as a name and a value, without spaces around the value. -/
def field? (line : Bytes) : Option (String × Bytes) :=
  match line.span isTokenByte with
  | ([], _) => none
  | (name, 0x3a :: value) =>
    if value.all isTextByte then
      let value := value.dropWhile isSpace
      some (Utf8.lossy name, (value.reverse.dropWhile isSpace).reverse)
    else none
  | _ => none

/-- The most header lines a head may have. -/
def maxFields : Nat := 100

def fields? (lines : List Bytes) : Option (List (String × Bytes)) :=
  if maxFields < lines.length then none else lines.mapM field?

inductive Version where
  | http10
  | http11
  deriving DecidableEq, Repr

def digit? (b : UInt8) : Option Nat :=
  if 0x30 ≤ b ∧ b ≤ 0x39 then some (b.toNat - 0x30) else none

/-- What a status line starts with. -/
def mark : Bytes := Utf8.encode "HTTP/1."

/-- A status line as the version and the code. The phrase can be anything, or missing. -/
def statusLine? (line : Bytes) : Option (Version × Nat) := do
  let rest ← if mark.isPrefixOf line then some (line.drop mark.length) else none
  match rest with
  | v :: 0x20 :: a :: b :: c :: phrase =>
    let version ← if v = 0x31 then some Version.http11
      else if v = 0x30 then some Version.http10 else none
    let status := 100 * (← digit? a) + 10 * (← digit? b) + (← digit? c)
    if 100 ≤ status ∧ (phrase = [] ∨ phrase.head? = some 0x20) ∧ phrase.all isTextByte then
      some (version, status)
    else none
  | _ => none

end KeyedLog.Http
