/-!
# Decimal numbers

The numeral of an integer, and the reading of bounded integers with the cause of each refusal.
-/
namespace KeyedLog.Decimal

def digit (n : Nat) : Char := Char.ofNat (48 + n)

/-- The digits of a number, most significant first, without leading zeros. -/
def digits (n : Nat) : List Char :=
  if n < 10 then [digit n] else digits (n / 10) ++ [digit (n % 10)]

def ofNat (n : Nat) : String := String.ofList (digits n)

/-- The numeral of an integer, with `-` before a negative one. -/
def ofInt (n : Int) : String :=
  String.ofList (if n < 0 then '-' :: digits n.natAbs else digits n.natAbs)

/-- The digits padded with zeros to a width. -/
def padded (width n : Nat) : List Char :=
  let ds := digits n
  List.replicate (width - ds.length) '0' ++ ds

/-- Why a text is no integer in the wanted range. -/
inductive Refusal where
  | empty
  | invalidDigit
  | tooLarge
  | tooSmall
  deriving DecidableEq, Repr

def Refusal.message : Refusal → String
  | .empty => "cannot parse integer from empty string"
  | .invalidDigit => "invalid digit found in string"
  | .tooLarge => "number too large to fit in target type"
  | .tooSmall => "number too small to fit in target type"

def digit? (c : Char) : Option Nat := if '0' ≤ c ∧ c ≤ '9' then some (c.toNat - 48) else none

/-- Read digits after the value read so far, as long as it stays at most `bound`. -/
def readDigits (bound : Nat) (beyond : Refusal) : Nat → List Char → Except Refusal Nat
  | value, [] => .ok value
  | value, c :: rest =>
    match digit? c with
    | none => .error .invalidDigit
    | some d =>
      if 10 * value + d ≤ bound then readDigits bound beyond (10 * value + d) rest
      else .error beyond

/-- Read an integer from `low` to `high`: an optional `+`, or `-` if `low` is negative, then
digits only, judged from left to right. -/
def readChars (low high : Int) : List Char → Except Refusal Int
  | [] => .error .empty
  | c :: rest =>
    if c = '+' ∧ rest ≠ [] then (readDigits high.toNat .tooLarge 0 rest).map Int.ofNat
    else if c = '-' ∧ low < 0 ∧ rest ≠ [] then
      (readDigits low.natAbs .tooSmall 0 rest).map fun n => -(n : Int)
    else (readDigits high.toNat .tooLarge 0 (c :: rest)).map Int.ofNat

def read (low high : Int) (text : String) : Except Refusal Int := readChars low high text.toList

/-- The bounds of the integers that occur. -/
def maxU16 : Nat := 65535
def maxU32 : Nat := 4294967295
def maxU64 : Nat := 18446744073709551615
def minI32 : Int := -2147483648
def maxI32 : Int := 2147483647
def minI64 : Int := -9223372036854775808
def maxI64 : Int := 9223372036854775807

def readI32 : String → Except Refusal Int := read minI32 maxI32
def readI64 : String → Except Refusal Int := read minI64 maxI64
def readU64 (text : String) : Except Refusal Nat := (read 0 maxU64 text).map Int.toNat
def readU32 (text : String) : Except Refusal Nat := (read 0 maxU32 text).map Int.toNat

/-- Read digits only, however many; no sign. -/
def readPlain? (cs : List Char) : Option Nat :=
  match cs with
  | [] => none
  | _ => cs.foldlM (fun value c => (digit? c).map (10 * value + ·)) 0

end KeyedLog.Decimal
