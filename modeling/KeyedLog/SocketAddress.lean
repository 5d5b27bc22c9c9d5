import KeyedLog.Text.Decimal
import KeyedLog.Text.Hex
import KeyedLog.Text.Split

/-!
# Socket addresses

An address and a port, as text: `a.b.c.d:port` or `[groups]:port`. Addresses are written in the
shortest form, with the first of the longest runs of zero groups left out.
-/
namespace KeyedLog

inductive IpAddress where
  | v4 (a b c d : Nat)
  | v6 (groups : List Nat) (scope : Nat)
  deriving DecidableEq, Repr

structure SocketAddress where
  ip : IpAddress
  port : Nat
  deriving DecidableEq, Repr

namespace SocketAddress

/-! ## Reading -/

/-- Read a number with all its digits, of which there may be at most so many. -/
def number? (base : Nat) (maxDigits : Option Nat) (bound : Nat) (cs : List Char) :
    Option ((List Char × Nat) × List Char) :=
  let isDigit (c : Char) : Bool :=
    match Hex.nibble? c with
    | some d => d.toNat < base
    | none => false
  let (ds, rest) := cs.span isDigit
  let value := ds.foldl (fun n c => base * n + ((Hex.nibble? c).map UInt8.toNat).getD 0) 0
  if ds = [] ∨ maxDigits.any (· < ds.length) ∨ bound < value then none
  else some ((ds, value), rest)

/-- Read an octet: a number up to 255 without leading zeros. -/
def octet? (cs : List Char) : Option (Nat × List Char) :=
  match number? 10 (some 3) 255 cs with
  | some ((ds, n), rest) => if ds.head? = some '0' ∧ ds.length ≠ 1 then none else some (n, rest)
  | none => none

def expect? (c : Char) : List Char → Option (List Char)
  | d :: rest => if c = d then some rest else none
  | [] => none

def v4? (cs : List Char) : Option ((Nat × Nat × Nat × Nat) × List Char) := do
  let (a, cs) ← octet? cs
  let cs ← expect? '.' cs
  let (b, cs) ← octet? cs
  let cs ← expect? '.' cs
  let (c, cs) ← octet? cs
  let cs ← expect? '.' cs
  let (d, cs) ← octet? cs
  some ((a, b, c, d), cs)

/-- Read up to `limit` groups, the last two of which may be written as an address of four octets;
whether they were is told as well. -/
def groups (isFirst : Bool) : (limit : Nat) → List Char → (List Nat × Bool) × List Char
  | 0, cs => (([], false), cs)
  | limit + 1, cs =>
    match if isFirst then some cs else expect? ':' cs with
    | none => (([], false), cs)
    | some after =>
      match if limit = 0 then none else v4? after with
      | some ((a, b, c, d), rest) => (([256 * a + b, 256 * c + d], true), rest)
      | none =>
        match number? 16 (some 4) 0xFFFF after with
        | none => (([], false), cs)
        | some ((_, n), rest) =>
          let ((more, embedded), rest) := groups false limit rest
          ((n :: more, embedded), rest)

/-- Read eight groups, of which a run of zeros may be left out. -/
def v6? (cs : List Char) : Option (List Nat × List Char) :=
  let ((front, embedded), rest) := groups true 8 cs
  if front.length = 8 then some (front, rest)
  else if embedded then none
  else
    match rest with
    | ':' :: ':' :: rest =>
      let ((back, _), rest) := groups true (7 - front.length) rest
      some (front ++ List.replicate (8 - front.length - back.length) 0 ++ back, rest)
    | _ => none

def port? (cs : List Char) : Option (Nat × List Char) :=
  match expect? ':' cs with
  | none => none
  | some cs => (number? 10 none Decimal.maxU16 cs).map fun ((_, n), rest) => (n, rest)

/-- Read the scope of an address, which is a number. -/
def scope (cs : List Char) : Nat × List Char :=
  match cs with
  | '%' :: rest =>
    match number? 10 none Decimal.maxU32 rest with
    | some ((_, n), rest) => (n, rest)
    | none => (0, cs)
  | _ => (0, cs)

def chars? (cs : List Char) : Option (SocketAddress × List Char) :=
  match v4? cs with
  | some ((a, b, c, d), rest) =>
    (port? rest).map fun (port, rest) => (⟨.v4 a b c d, port⟩, rest)
  | none =>
    match cs with
    | '[' :: rest =>
      match v6? rest with
      | none => none
      | some (groups, rest) =>
        let (scope, rest) := scope rest
        match rest with
        | ']' :: rest => (port? rest).map fun (port, rest) => (⟨.v6 groups scope, port⟩, rest)
        | _ => none
    | _ => none

def ofText? (text : String) : Option SocketAddress :=
  match chars? text.toList with
  | some (address, []) => some address
  | _ => none

/-! ## Writing -/

/-- The length of the run of zeros in front. -/
def zeros (groups : List Nat) : Nat := (groups.takeWhile (· = 0)).length

/-- Where the first of the longest runs of zeros starts, and its length. -/
def longestRun : (start : Nat) → List Nat → Nat × Nat
  | _, [] => (0, 0)
  | start, g :: rest =>
    let here := zeros (g :: rest)
    let (later, length) := longestRun (start + 1) rest
    if length ≤ here then (start, here) else (later, length)

def joined (groups : List Nat) : String :=
  String.intercalate ":" (groups.map fun g => String.ofList (Hex.ofNat g))

def v4Text (a b c d : Nat) : String :=
  String.intercalate "." ([a, b, c, d].map Decimal.ofNat)

def v6Text (groups : List Nat) : String :=
  match groups with
  | [0, 0, 0, 0, 0, 0xFFFF, g, h] =>
    "::ffff:" ++ v4Text (g / 256) (g % 256) (h / 256) (h % 256)
  | _ =>
    let (start, length) := longestRun 0 groups
    if 1 < length then joined (groups.take start) ++ "::" ++ joined (groups.drop (start + length))
    else joined groups

def text (s : SocketAddress) : String :=
  match s.ip with
  | .v4 a b c d => v4Text a b c d ++ ":" ++ Decimal.ofNat s.port
  | .v6 groups scope =>
    "[" ++ v6Text groups ++ (if scope = 0 then "" else "%" ++ Decimal.ofNat scope) ++ "]:" ++
      Decimal.ofNat s.port

end SocketAddress

end KeyedLog
