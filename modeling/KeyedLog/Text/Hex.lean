/-!
# Hexadecimal text

Bytes as pairs of hexadecimal digits. Writing uses lower case; reading takes either case.
-/

/-- Uninterpreted bytes: keys, values and file contents. -/
abbrev KeyedLog.Bytes := List UInt8

namespace KeyedLog.Hex

/-- The lower-case digit of a number below sixteen. -/
def digit (n : UInt8) : Char :=
  if n < 10 then Char.ofNat (48 + n.toNat) else Char.ofNat (87 + n.toNat)

/-- The two digits of a byte, the high one first. -/
def pair (b : UInt8) : List Char := [digit (b / 16), digit (b % 16)]

def encode (bytes : Bytes) : String := String.ofList (bytes.flatMap pair)

def nibble? (c : Char) : Option UInt8 :=
  if '0' ≤ c ∧ c ≤ '9' then some (c.toNat - 48).toUInt8
  else if 'a' ≤ c ∧ c ≤ 'f' then some (c.toNat - 87).toUInt8
  else if 'A' ≤ c ∧ c ≤ 'F' then some (c.toNat - 55).toUInt8
  else none

def isDigit (c : Char) : Bool := (nibble? c).isSome

/-- Read pairs of digits; an odd length or any other character fails. -/
def pairs? : List Char → Option Bytes
  | [] => some []
  | [_] => none
  | high :: low :: rest =>
    match nibble? high, nibble? low, pairs? rest with
    | some h, some l, some bytes => some ((16 * h + l) :: bytes)
    | _, _, _ => none

def decode? (text : String) : Option Bytes := pairs? text.toList

/-- The digits of a number, most significant first, without leading zeros. -/
def ofNat (n : Nat) : List Char :=
  if n < 16 then [digit n.toUInt8] else ofNat (n / 16) ++ [digit (n % 16).toUInt8]

theorem nibble?_digit (n : UInt8) (h : n < 16) : nibble? (digit n) = some n := by
  have all : ∀ m < 16, nibble? (digit (UInt8.ofNat m)) = some (UInt8.ofNat m) := by decide
  simpa using all n.toNat (by simpa [UInt8.lt_iff_toNat_lt] using h)

theorem pairs?_flatMap_pair (bytes : Bytes) : pairs? (bytes.flatMap pair) = some bytes := by
  induction bytes with
  | nil => rfl
  | cons b r ih =>
    have hlt := b.toNat_lt
    have hs : b / 16 < 16 := by simp [UInt8.lt_iff_toNat_lt]; omega
    have hr : b % 16 < 16 := by simp [UInt8.lt_iff_toNat_lt]; omega
    have hb : 16 * (b / 16) + b % 16 = b := by
      apply UInt8.toNat.inj
      simp
      omega
    simp [List.flatMap_cons, pair, pairs?, nibble?_digit _ hs, nibble?_digit _ hr, ih, hb]

@[simp] theorem decode?_encode (bytes : Bytes) : decode? (encode bytes) = some bytes := by
  simp [decode?, encode, pairs?_flatMap_pair]

end KeyedLog.Hex
