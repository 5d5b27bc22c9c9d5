import KeyedLog.Text.Decimal
import KeyedLog.Text.Split

/-!
# Addresses of resources

A URI as text: with a scheme, an authority and a path, or one of the shorter forms that name only
an authority, only a path, or the server as a whole.
-/
namespace KeyedLog

/-- The part of a URI that says whom to ask: user information, a host and a port. -/
structure Authority where
  chars : List Char
  deriving DecidableEq, Repr

namespace Authority

def text (a : Authority) : String := String.ofList a.chars

/-- The characters after the last `@`, or all of them. -/
def withoutUser (a : Authority) : List Char :=
  match Text.splitLast? '@' a.chars with
  | some (_, rest) => rest
  | none => a.chars

/-- The host: up to the closing bracket if it is in brackets, else up to a colon. -/
def host (a : Authority) : List Char :=
  match a.withoutUser with
  | '[' :: rest =>
    match rest.span (· ≠ ']') with
    | (inner, _ :: _) => '[' :: inner ++ [']']
    | (inner, []) => '[' :: inner
  | cs => cs.takeWhile (· ≠ ':')

/-- Read a port: one to five digits, up to 65535. -/
def readPort? (cs : List Char) : Option Nat :=
  if 5 < cs.length then none
  else (Decimal.readPlain? cs).filter (· ≤ Decimal.maxU16)

/-- The number after the last colon, if it is one of a port. -/
def port? (a : Authority) : Option Nat :=
  match Text.splitLast? ':' a.chars with
  | some (_, digits) => readPort? digits
  | none => none

end Authority

/-- The path and the query of a URI; what follows `#` is not part of it. -/
structure Target where
  path : List Char
  query : Option (List Char) := none
  deriving DecidableEq, Repr

namespace Target

/-- The path, which is `/` if none is written. -/
def fullPath (t : Target) : List Char := if t.path = [] then ['/'] else t.path

def chars (t : Target) : List Char :=
  match t.path, t.query with
  | [], none => ['/']
  | path, none => path
  | path, some query => path ++ '?' :: query

def text (t : Target) : String := String.ofList t.chars

end Target

inductive Uri where
  | asterisk
  | relative (target : Target)
  | authority (a : Authority)
  | absolute (scheme : String) (a : Authority) (target : Target)
  deriving DecidableEq, Repr

namespace Uri

inductive Fault where
  | empty
  | tooLong
  | schemeTooLong
  | invalidCharacter
  | invalidAuthority
  | invalidFormat
  deriving DecidableEq, Repr

def Fault.message : Fault → String
  | .empty => "empty string"
  | .tooLong => "uri too long"
  | .schemeTooLong => "scheme too long"
  | .invalidCharacter => "invalid uri character"
  | .invalidAuthority => "invalid authority"
  | .invalidFormat => "invalid format"

/-- The most bytes a URI may have. -/
def maxLength : Nat := 65534

/-! ## The authority -/

/-- What ends an authority. -/
def endsAuthority (c : Char) : Bool := c == '/' || c == '?' || c == '#'

/-- The characters of authorities other than letters and digits. -/
def authorityMarks : List Char :=
  ['!', '$', '&', '\'', '(', ')', '*', '+', ',', '-', '.', ':', ';', '=', '@', '[', ']', '_', '~']

def isAuthorityChar (c : Char) : Bool := c.isAlphanum || authorityMarks.contains c

/-- What counts of the part of an authority that was looked through. -/
structure Seen where
  /-- The colons outside of user information and brackets. -/
  colons : Nat := 0
  opened : Bool := false
  closed : Bool := false
  /-- Whether there is a `%` outside of user information and brackets. -/
  percent : Bool := false
  /-- Whether the last character is `@`. -/
  endsUser : Bool := false
  deriving DecidableEq, Repr

/-- The most colons in a row of parts, which an address in brackets has. -/
def maxColons : Nat := 8

def Seen.next (s : Seen) (c : Char) : Except Fault Seen :=
  let s := { s with endsUser := c = '@' }
  if c = ':' then
    if maxColons ≤ s.colons then .error .invalidAuthority
    else .ok { s with colons := s.colons + 1 }
  else if c = '[' then
    if s.percent ∨ s.opened then .error .invalidAuthority else .ok { s with opened := true }
  else if c = ']' then
    if ¬s.opened ∨ s.closed then .error .invalidAuthority
    else .ok { s with closed := true, colons := 0, percent := false }
  else if c = '@' then .ok { s with colons := 0, percent := false }
  else if c = '%' then .ok { s with percent := true }
  else if isAuthorityChar c then .ok s
  else .error .invalidCharacter

/-- Whether an authority may end here. -/
def Seen.isComplete (s : Seen) : Bool :=
  s.opened == s.closed && s.colons ≤ 1 && !s.endsUser && !s.percent

/-- Read an authority, and tell what follows it. -/
def readAuthority (cs : List Char) : Except Fault (Authority × List Char) :=
  let (front, rest) := cs.span fun c => !endsAuthority c
  match front.foldlM Seen.next ({} : Seen) with
  | .error e => .error e
  | .ok s => if s.isComplete then .ok (⟨front⟩, rest) else .error .invalidAuthority

/-! ## Path and query -/

/-- The characters of paths: all visible ones that are not kept for other parts. -/
def isPathChar (c : Char) : Bool :=
  let n := c.toNat
  n == 0x21 || n == 0x22 || (0x24 ≤ n && n ≤ 0x3B) || n == 0x3D || (0x40 ≤ n && n ≤ 0x5F) ||
    (0x61 ≤ n && n ≤ 0x7E) || 0x7F ≤ n

def isQueryChar (c : Char) : Bool :=
  let n := c.toNat
  n == 0x21 || (0x24 ≤ n && n ≤ 0x3B) || n == 0x3D || 0x3F ≤ n

/-- Read the characters up to `#`, all of which have to be of the kind given. -/
def readPart (isPart : Char → Bool) (cs : List Char) : Except Fault (List Char) :=
  let part := cs.takeWhile (· ≠ '#')
  if part.all isPart then .ok part else .error .invalidCharacter

def readTarget (cs : List Char) : Except Fault Target :=
  let (path, rest) := cs.span fun c => c ≠ '?' && c ≠ '#'
  if ¬path.all isPathChar then .error .invalidCharacter
  else
    match rest with
    | '?' :: query => (readPart isQueryChar query).map fun query => ⟨path, some query⟩
    | _ => .ok ⟨path, none⟩

/-! ## The whole -/

/-- The characters of schemes other than letters and digits. -/
def schemeMarks : List Char := ['+', '-', '.', '~']

def isSchemeChar (c : Char) : Bool := c.isAlphanum || schemeMarks.contains c

/-- The most characters of a scheme. -/
def maxScheme : Nat := 64

/-- The schemes whose case does not matter. -/
def standardSchemes : List String := ["http", "https"]

/-- Take off a scheme with the `://` behind it, if there is one. -/
def readScheme (cs : List Char) : Except Fault (Option String × List Char) :=
  match cs.span isSchemeChar with
  | (scheme, ':' :: '/' :: '/' :: rest) =>
    let lowered := String.ofList (scheme.map Char.toLower)
    if standardSchemes.contains lowered then .ok (some lowered, rest)
    else if maxScheme < scheme.length then .error .schemeTooLong
    else .ok (some (String.ofList scheme), rest)
  | _ => .ok (none, cs)

/-- Read what follows the scheme, if there is one; without a scheme, an authority is all. -/
def readRest (scheme : Option String) (cs : List Char) : Except Fault Uri :=
  match readAuthority cs with
  | .error e => .error e
  | .ok (a, rest) =>
    match scheme with
    | none => if rest = [] then .ok (.authority a) else .error .invalidFormat
    | some scheme =>
      if a.chars = [] then .error .invalidFormat
      else (readTarget rest).map (.absolute scheme a)

def readChars (cs : List Char) : Except Fault Uri :=
  match cs with
  | [] => .error .empty
  | ['*'] => .ok .asterisk
  | '/' :: _ => (readTarget cs).map .relative
  | [c] => if endsAuthority c then .error .invalidCharacter else readRest none [c]
  | _ =>
    match readScheme cs with
    | .error e => .error e
    | .ok (scheme, rest) => readRest scheme rest

def ofText (text : String) : Except Fault Uri :=
  if maxLength < text.utf8ByteSize then .error .tooLong else readChars text.toList

end Uri

end KeyedLog
