import KeyedLog.Text.Decimal
import KeyedLog.Text.Utf8

/-!
# Scanning JSON

The tokens of JSON, read off the front of bytes. Every reader answers what it read together with
the bytes that are left.
-/
namespace KeyedLog.Json

/-- Why a text is refused: it is no JSON, or it is JSON of the wrong shape. -/
inductive Fault where
  | malformed
  | mistyped
  deriving DecidableEq, Repr

abbrev Read (α : Type) := Except Fault (α × Bytes)

def byteOf (c : Char) : UInt8 := c.toNat.toUInt8

def isBlank (b : UInt8) : Bool := b == 0x20 || b == 0x09 || b == 0x0a || b == 0x0d

def skipBlank (bytes : Bytes) : Bytes := bytes.dropWhile isBlank

def isDigit (b : UInt8) : Bool := 0x30 ≤ b && b ≤ 0x39

/-- Read given letters. -/
def word (letters : String) (bytes : Bytes) : Read Unit :=
  let wanted := Utf8.encode letters
  if wanted.isPrefixOf bytes then .ok ((), bytes.drop wanted.length) else .error .malformed

def hexValue? (b : UInt8) : Option Nat :=
  if isDigit b then some (b.toNat - 0x30)
  else if 0x61 ≤ b ∧ b ≤ 0x66 then some (b.toNat - 0x57)
  else if 0x41 ≤ b ∧ b ≤ 0x46 then some (b.toNat - 0x37)
  else none

/-- Read four hexadecimal digits. -/
def unit? : Bytes → Option (Nat × Bytes)
  | a :: b :: c :: d :: rest =>
    match hexValue? a, hexValue? b, hexValue? c, hexValue? d with
    | some a, some b, some c, some d => some (((a * 16 + b) * 16 + c) * 16 + d, rest)
    | _, _, _, _ => none
  | _ => none

/-- Read what follows `\u`: one unit, or a high and a low surrogate. -/
def codePoint? (bytes : Bytes) : Option (Char × Bytes) :=
  match unit? bytes with
  | none => none
  | some (high, rest) =>
    if 0xDC00 ≤ high ∧ high ≤ 0xDFFF then none
    else if high < 0xD800 ∨ 0xDBFF < high then some (Char.ofNat high, rest)
    else
      match rest with
      | 0x5c :: 0x75 :: rest =>
        match unit? rest with
        | some (low, rest) =>
          if 0xDC00 ≤ low ∧ low ≤ 0xDFFF then
            some (Char.ofNat (0x10000 + (high - 0xD800) * 0x400 + (low - 0xDC00)), rest)
          else none
        | none => none
      | _ => none

/-- The byte a one-letter escape stands for. -/
def escape? (b : UInt8) : Option UInt8 :=
  if b = 0x22 ∨ b = 0x5c ∨ b = 0x2f then some b
  else if b = 0x62 then some 0x08
  else if b = 0x66 then some 0x0c
  else if b = 0x6e then some 0x0a
  else if b = 0x72 then some 0x0d
  else if b = 0x74 then some 0x09
  else none

theorem unit?_length {bytes rest : Bytes} {n : Nat} (h : unit? bytes = some (n, rest)) :
    rest.length < bytes.length := by
  unfold unit? at h
  split at h
  · split at h
    · simp only [Option.some.injEq, Prod.mk.injEq] at h
      obtain ⟨_, rfl⟩ := h
      simp
      omega
    · simp at h
  · simp at h

theorem codePoint?_length {bytes rest : Bytes} {c : Char} (h : codePoint? bytes = some (c, rest)) :
    rest.length < bytes.length := by
  unfold codePoint? at h
  split at h
  · simp at h
  · rename_i high rest₁ h₁
    have shorter := unit?_length h₁
    split at h
    · simp at h
    · split at h
      · simp only [Option.some.injEq, Prod.mk.injEq] at h
        obtain ⟨_, rfl⟩ := h
        exact shorter
      · split at h
        · split at h
          · rename_i rest₂ _ low rest₃ h₃
            have shorter₃ := unit?_length h₃
            split at h
            · simp only [Option.some.injEq, Prod.mk.injEq] at h
              obtain ⟨_, rfl⟩ := h
              simp at shorter
              omega
            · simp at h
          · simp at h
        · simp at h

/-- Read the rest of a string after its opening quote. What was read is held backwards. -/
def stringOnto (read : Bytes) (bytes : Bytes) : Read Bytes :=
  match bytes with
  | [] => .error .malformed
  | b :: rest =>
    if b = 0x22 then .ok (read.reverse, rest)
    else if b = 0x5c then
      match rest with
      | [] => .error .malformed
      | e :: more =>
        if e = 0x75 then
          match h : codePoint? more with
          | some (c, left) =>
            have := codePoint?_length h
            stringOnto ((String.utf8EncodeChar c).reverse ++ read) left
          | none => .error .malformed
        else
          match escape? e with
          | some plain => stringOnto (plain :: read) more
          | none => .error .malformed
    else if b < 0x20 then .error .malformed
    else stringOnto (b :: read) rest
  termination_by bytes.length

/-- Read the text of a string after its opening quote. -/
def textAfterQuote (bytes : Bytes) : Read String :=
  match stringOnto [] bytes with
  | .error e => .error e
  | .ok (raw, rest) =>
    match Utf8.decode? raw with
    | some text => .ok (text, rest)
    | none => .error .malformed

/-- Pass over the rest of a string after its opening quote, whatever characters it holds. -/
def skipString (bytes : Bytes) : Read Unit :=
  match bytes with
  | [] => .error .malformed
  | b :: rest =>
    if b = 0x22 then .ok ((), rest)
    else if b = 0x5c then
      match rest with
      | [] => .error .malformed
      | e :: more =>
        if e = 0x75 then
          match h : unit? more with
          | some (_, left) =>
            have := unit?_length h
            skipString left
          | none => .error .malformed
        else if (escape? e).isSome then skipString more
        else .error .malformed
    else if b < 0x20 then .error .malformed
    else skipString rest
  termination_by bytes.length

/-- A number as it is written. -/
structure Numeral where
  negative : Bool
  whole : Bytes
  fraction : Option Bytes
  exponent : Option (Bool × Bytes)
  deriving DecidableEq, Repr

namespace Numeral

def nat (digits : Bytes) : Nat := digits.foldl (fun n d => 10 * n + (d.toNat - 0x30)) 0

/-- The value of a numeral without fraction and exponent. A zero with a sign is no integer. -/
def integer? (n : Numeral) : Option Int :=
  match n.fraction, n.exponent with
  | none, none =>
    if n.negative then if nat n.whole = 0 then none else some (-(nat n.whole : Int))
    else some (nat n.whole)
  | _, _ => none

/-- The greatest double and half its distance to the one below it: from here on a number rounds to
infinity. -/
def overflow : Nat := Nat.pow 2 1024 - Nat.pow 2 970

/-- The value of digits, of which only the first twenty that count are looked at. -/
def magnitude (digits : Bytes) : Nat := nat ((digits.dropWhile (· == 0x30)).take 20)

/-- Whether the number is too large for a double. -/
def isHuge (n : Numeral) : Bool :=
  let digits := (n.whole ++ n.fraction.getD []).dropWhile (· == 0x30)
  let places : Int := (n.fraction.getD []).length
  let exponent : Int := match n.exponent with
    | some (true, digits) => -(magnitude digits : Int)
    | some (false, digits) => magnitude digits
    | none => 0
  let leading := digits.take 20
  let scale : Int := exponent - places + (digits.length - leading.length : Nat)
  if digits = [] then false
  else if 400 < scale then true
  else if scale < 0 then false
  else overflow ≤ nat leading * Nat.pow 10 scale.toNat

end Numeral

/-- Read at least one digit. -/
def digits (bytes : Bytes) : Read Bytes :=
  match bytes.span isDigit with
  | ([], _) => .error .malformed
  | (ds, rest) => .ok (ds, rest)

/-- Read a fraction, if there is one. -/
def fraction (bytes : Bytes) : Read (Option Bytes) :=
  match bytes with
  | 0x2e :: rest => (digits rest).map fun (ds, rest) => (some ds, rest)
  | _ => .ok (none, bytes)

/-- Read an exponent, if there is one, as whether it is negative and its digits. -/
def exponent (bytes : Bytes) : Read (Option (Bool × Bytes)) :=
  match bytes with
  | e :: rest =>
    if e = 0x65 ∨ e = 0x45 then
      match rest with
      | 0x2d :: rest => (digits rest).map fun (ds, rest) => (some (true, ds), rest)
      | 0x2b :: rest => (digits rest).map fun (ds, rest) => (some (false, ds), rest)
      | _ => (digits rest).map fun (ds, rest) => (some (false, ds), rest)
    else .ok (none, bytes)
  | [] => .ok (none, bytes)

/-- Read a number. Its whole part has no leading zeros. -/
def number (bytes : Bytes) : Read Numeral :=
  let (negative, bytes) := match bytes with
    | 0x2d :: rest => (true, rest)
    | _ => (false, bytes)
  match digits bytes with
  | .error e => .error e
  | .ok (whole, rest) =>
    if whole.head? = some 0x30 ∧ whole.length ≠ 1 then .error .malformed
    else
      match fraction rest with
      | .error e => .error e
      | .ok (fraction, rest) =>
        match exponent rest with
        | .error e => .error e
        | .ok (exponent, rest) => .ok (⟨negative, whole, fraction, exponent⟩, rest)

/-- The kinds of brackets that are open. -/
inductive Bracket where
  | array
  | object
  deriving DecidableEq, Repr

/-- What comes next while a value is passed over. -/
inductive Expect where
  | value
  | member
  | separator
  deriving DecidableEq, Repr

/-- Pass over the name of a member and the colon after it. -/
def skipName (bytes : Bytes) : Read Unit :=
  match skipBlank bytes with
  | 0x22 :: rest =>
    match skipString rest with
    | .error e => .error e
    | .ok ((), rest) =>
      match skipBlank rest with
      | 0x3a :: rest => .ok ((), rest)
      | _ => .error .malformed
  | _ => .error .malformed

/-- Pass over one token of a value inside open brackets: what is expected then and which brackets
are open. -/
def skipToken (expect : Expect) (opened : List Bracket) (bytes : Bytes) :
    Read (Expect × List Bracket) :=
  let bytes := skipBlank bytes
  match expect, bytes with
  | _, [] => .error .malformed
  | .value, b :: rest =>
    if b = 0x22 then (skipString rest).map fun ((), rest) => ((.separator, opened), rest)
    else if b = 0x2d ∨ isDigit b then
      (number bytes).map fun (_, rest) => ((.separator, opened), rest)
    else if b = 0x6e then (word "null" bytes).map fun ((), rest) => ((.separator, opened), rest)
    else if b = 0x74 then (word "true" bytes).map fun ((), rest) => ((.separator, opened), rest)
    else if b = 0x66 then (word "false" bytes).map fun ((), rest) => ((.separator, opened), rest)
    else if b = 0x5b then
      match skipBlank rest with
      | 0x5d :: rest => .ok ((.separator, opened), rest)
      | _ => .ok ((.value, .array :: opened), rest)
    else if b = 0x7b then
      match skipBlank rest with
      | 0x7d :: rest => .ok ((.separator, opened), rest)
      | _ => .ok ((.member, .object :: opened), rest)
    else .error .malformed
  | .member, _ => (skipName bytes).map fun ((), rest) => ((.value, opened), rest)
  | .separator, b :: rest =>
    match opened with
    | .array :: outer =>
      if b = 0x2c then .ok ((.value, opened), rest)
      else if b = 0x5d then .ok ((.separator, outer), rest)
      else .error .malformed
    | .object :: outer =>
      if b = 0x2c then .ok ((.member, opened), rest)
      else if b = 0x7d then .ok ((.separator, outer), rest)
      else .error .malformed
    | [] => .error .malformed

/-- Pass over tokens until no bracket is open; there are at most as many as there are bytes. -/
def skipTokens : (bound : Nat) → Expect → List Bracket → Bytes → Read Unit
  | 0, _, _, _ => .error .malformed
  | bound + 1, expect, opened, bytes =>
    match skipToken expect opened bytes with
    | .error e => .error e
    | .ok ((.separator, []), rest) => .ok ((), rest)
    | .ok ((expect, opened), rest) => skipTokens bound expect opened rest

/-- Pass over a value of any shape. -/
def skipValue (bytes : Bytes) : Read Unit := skipTokens (bytes.length + 1) .value [] bytes

/-- What is wrong with a value that is not of the wanted shape. A value is read as far as it
takes to see its shape, so that it may turn out to be none. -/
def refuse (bytes : Bytes) : Fault :=
  match skipBlank bytes with
  | [] => .malformed
  | b :: rest =>
    let shape {α : Type} : Read α → Fault
      | .ok _ => .mistyped
      | .error e => e
    if b = 0x22 then shape (textAfterQuote rest)
    else if b = 0x2d ∨ isDigit b then
      match number (b :: rest) with
      | .ok (n, _) => if n.isHuge then .malformed else .mistyped
      | .error e => e
    else if b = 0x6e then shape (word "null" (b :: rest))
    else if b = 0x74 then shape (word "true" (b :: rest))
    else if b = 0x66 then shape (word "false" (b :: rest))
    else if b = 0x5b ∨ b = 0x7b then .mistyped
    else .malformed

/-- Read a text. -/
def text (bytes : Bytes) : Read String :=
  match skipBlank bytes with
  | 0x22 :: rest => textAfterQuote rest
  | _ => .error (refuse bytes)

/-- Read an integer within bounds. -/
def integer (low high : Int) (bytes : Bytes) : Read Int :=
  match skipBlank bytes with
  | b :: rest =>
    if b = 0x2d ∨ isDigit b then
      match number (b :: rest) with
      | .error e => .error e
      | .ok (n, rest) =>
        match n.integer? with
        | some i => if low ≤ i ∧ i ≤ high then .ok (i, rest) else .error .mistyped
        | none => .error .mistyped
    else .error (refuse bytes)
  | [] => .error .malformed

/-- Nothing but blanks is left. -/
def atEnd (bytes : Bytes) : Bool := (skipBlank bytes).isEmpty

end KeyedLog.Json
