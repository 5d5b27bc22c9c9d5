import KeyedLog.Text.Decimal
import KeyedLog.Text.Utf8

/-!
# Base64

The standard alphabet with required padding. Every byte string has one written form, and reading
refuses all other texts with the place of the first fault.
-/
namespace KeyedLog.Base64

def pad : UInt8 := 61

/-- The byte that stands for a number below sixty-four. -/
def symbol (n : UInt8) : UInt8 :=
  if n < 26 then n + 65
  else if n < 52 then n + 71
  else if n < 62 then n - 4
  else if n = 62 then 43
  else 47

/-- The number a byte stands for. -/
def value? (b : UInt8) : Option UInt8 :=
  if 65 ≤ b ∧ b ≤ 90 then some (b - 65)
  else if 97 ≤ b ∧ b ≤ 122 then some (b - 71)
  else if 48 ≤ b ∧ b ≤ 57 then some (b + 4)
  else if b = 43 then some 62
  else if b = 47 then some 63
  else none

/-- Four symbols for three bytes. -/
def quad (a b c : UInt8) : Bytes :=
  [symbol (a / 4), symbol (a % 4 * 16 + b / 16), symbol (b % 16 * 4 + c / 64), symbol (c % 64)]

/-- Write after what has been written so far, which is held backwards. -/
def encodeOnto (written : Bytes) : Bytes → Bytes
  | a :: b :: c :: rest => encodeOnto ((quad a b c).reverse ++ written) rest
  | [a, b] =>
    (pad :: symbol (b % 16 * 4) :: symbol (a % 4 * 16 + b / 16) :: symbol (a / 4) ::
      written).reverse
  | [a] => (pad :: pad :: symbol (a % 4 * 16) :: symbol (a / 4) :: written).reverse
  | [] => written.reverse

/-- The bytes of the written form. -/
def encode (bytes : Bytes) : Bytes := encodeOnto [] bytes

def encodeText (bytes : Bytes) : String :=
  String.ofList ((encode bytes).map fun b => Char.ofNat b.toNat)

/-- Why a text is not the written form of any bytes. -/
inductive Fault where
  | symbol (byte : UInt8) (offset : Nat)
  | length (symbols : Nat)
  | padding
  | lastSymbol (byte : UInt8) (offset : Nat)
  deriving DecidableEq, Repr

def Fault.message : Fault → String
  | .symbol byte offset =>
    "Invalid symbol " ++ Decimal.ofNat byte.toNat ++ ", offset " ++ Decimal.ofNat offset ++ "."
  | .length symbols => "Invalid input length: " ++ Decimal.ofNat symbols
  | .padding => "Invalid padding"
  | .lastSymbol byte offset =>
    "Invalid last symbol " ++ Decimal.ofNat byte.toNat ++ ", offset " ++ Decimal.ofNat offset ++ "."

/-- What the last one to four bytes hold, read from the left: the numbers of the symbols, and the
places of the padding. -/
structure Ending where
  values : List UInt8
  padding : Nat
  firstPad : Nat
  lastByte : UInt8

/-- Read the last bytes. Padding may only come third or fourth, and nothing follows it. -/
def readEnding (start : Nat) (place : Nat) (seen : Ending) : Bytes → Except Fault Ending
  | [] => .ok seen
  | b :: rest =>
    if b = pad then
      if place < 2 then .error (.symbol pad (start + place))
      else
        let firstPad := if seen.padding = 0 then place else seen.firstPad
        readEnding start (place + 1)
          { seen with padding := seen.padding + 1, firstPad := firstPad } rest
    else if seen.padding ≠ 0 then .error (.symbol pad (start + seen.firstPad))
    else
      match value? b with
      | none => .error (.symbol b (start + place))
      | some v =>
        readEnding start (place + 1) { seen with values := seen.values ++ [v], lastByte := b } rest

/-- The bytes of the last one to four symbols. -/
def decodeEnding (start : Nat) (tail : Bytes) : Except Fault Bytes :=
  match readEnding start 0 ⟨[], 0, 0, 0⟩ tail with
  | .error fault => .error fault
  | .ok ending =>
    let symbols := ending.values.length
    if symbols < 2 then .error (.length (start + symbols))
    else if symbols + ending.padding ≠ 4 then .error .padding
    else
      match ending.values with
      | [a, b, c, d] => .ok [a * 4 + b / 16, b % 16 * 16 + c / 4, c % 4 * 64 + d]
      | [a, b, c] =>
        if c % 4 = 0 then .ok [a * 4 + b / 16, b % 16 * 16 + c / 4]
        else .error (.lastSymbol ending.lastByte (start + symbols - 1))
      | [a, b] =>
        if b % 16 = 0 then .ok [a * 4 + b / 16]
        else .error (.lastSymbol ending.lastByte (start + symbols - 1))
      | _ => .error .padding

/-- Read one symbol of a quad that is not the last. -/
def readSymbol (b : UInt8) (offset : Nat) : Except Fault UInt8 :=
  match value? b with
  | some v => .ok v
  | none => .error (.symbol b offset)

/-- Read quads after what has been read so far, which is held backwards. -/
def decodeOnto (start : Nat) (read : Bytes) : Bytes → Except Fault Bytes
  | a :: b :: c :: d :: e :: rest =>
    match readSymbol a start, readSymbol b (start + 1), readSymbol c (start + 2),
      readSymbol d (start + 3) with
    | .ok a, .ok b, .ok c, .ok d =>
      decodeOnto (start + 4)
        ((c % 4 * 64 + d) :: (b % 16 * 16 + c / 4) :: (a * 4 + b / 16) :: read) (e :: rest)
    | .error fault, _, _, _ => .error fault
    | _, .error fault, _, _ => .error fault
    | _, _, .error fault, _ => .error fault
    | _, _, _, .error fault => .error fault
  | [] => .ok read.reverse
  | tail =>
    match decodeEnding start tail with
    | .error fault => .error fault
    | .ok bytes => .ok (read.reverse ++ bytes)

/-- Read a written form. A text one symbol too long is refused for that symbol if it is none. -/
def decode (text : Bytes) : Except Fault Bytes :=
  let stray := if text.length % 4 = 1 then text.getLast? else none
  match stray with
  | some b =>
    if b ≠ pad ∧ value? b = none then .error (.symbol b (text.length - 1))
    else decodeOnto 0 [] text
  | none => decodeOnto 0 [] text

def decodeText (text : String) : Except Fault Bytes := decode (Utf8.encode text)

end KeyedLog.Base64
