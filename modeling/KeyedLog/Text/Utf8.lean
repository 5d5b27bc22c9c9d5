import KeyedLog.Text.Hex

/-!
# UTF-8

Text as bytes, the strict reading that refuses malformed bytes, and the lossy reading that
replaces each maximal malformed piece by one replacement character.
-/
namespace KeyedLog.Utf8

def encode (text : String) : Bytes := text.toByteArray.data.toList

/-- The text the bytes encode, if they are well formed. -/
def decode? (bytes : Bytes) : Option String := String.fromUTF8? bytes.toByteArray

/-- The character that stands for bytes which encode none. -/
def replacement : Char := '\ufffd'

/-- A sequence begun: the range the next byte has to lie in, how many bytes follow that one, and
the bits read so far. -/
structure Partial where
  low : UInt8
  high : UInt8
  following : Nat
  bits : Nat

/-- What a byte at the start of a sequence does: it is a character, it opens a sequence, or it is
malformed. -/
def begin (b : UInt8) : List Char × Option Partial :=
  if b < 0x80 then ([Char.ofNat b.toNat], none)
  else if 0xC2 ≤ b ∧ b ≤ 0xDF then ([], some ⟨0x80, 0xBF, 0, b.toNat - 0xC0⟩)
  else if b = 0xE0 then ([], some ⟨0xA0, 0xBF, 1, 0⟩)
  else if b = 0xED then ([], some ⟨0x80, 0x9F, 1, 0xD⟩)
  else if 0xE1 ≤ b ∧ b ≤ 0xEF then ([], some ⟨0x80, 0xBF, 1, b.toNat - 0xE0⟩)
  else if b = 0xF0 then ([], some ⟨0x90, 0xBF, 2, 0⟩)
  else if 0xF1 ≤ b ∧ b ≤ 0xF3 then ([], some ⟨0x80, 0xBF, 2, b.toNat - 0xF0⟩)
  else if b = 0xF4 then ([], some ⟨0x80, 0x8F, 2, 4⟩)
  else ([replacement], none)

/-- One byte: the characters it completes and the sequence it leaves open. A byte that cannot
continue a sequence ends it as malformed and is looked at again on its own. -/
def feed : Option Partial → UInt8 → List Char × Option Partial
  | none, b => begin b
  | some p, b =>
    if p.low ≤ b ∧ b ≤ p.high then
      let bits := 64 * p.bits + (b.toNat - 0x80)
      match p.following with
      | 0 => ([Char.ofNat bits], none)
      | n + 1 => ([], some ⟨0x80, 0xBF, n, bits⟩)
    else
      let (chars, next) := begin b
      (replacement :: chars, next)

/-- The characters of bytes that may be malformed. -/
def repaired (bytes : Bytes) : List Char :=
  let (chars, rest) := bytes.foldl
    (fun (state : List Char × Option Partial) b =>
      let (more, next) := feed state.2 b
      (more.reverse ++ state.1, next))
    ([], none)
  (if rest.isSome then replacement :: chars else chars).reverse

/-- The text of the bytes, with the malformed pieces replaced. -/
def lossy (bytes : Bytes) : String :=
  match decode? bytes with
  | some text => text
  | none => String.ofList (repaired bytes)

@[simp] theorem decode?_encode (text : String) : decode? (encode text) = some text := by
  have h : (encode text).toByteArray = text.toByteArray := by
    apply ByteArray.ext
    apply Array.toList_inj.mp
    simp [encode]
  simp [decode?, h, String.fromUTF8?, text.isValidUTF8, String.fromUTF8]

@[simp] theorem lossy_encode (text : String) : lossy (encode text) = text := by
  simp [lossy]

/-- Only the encoding of a text reads back as it. -/
theorem encode_of_decode? {bytes : Bytes} {text : String} (h : decode? bytes = some text) :
    encode text = bytes := by
  simp only [decode?, String.fromUTF8?, Option.dite_none_right_eq_some, Option.some.injEq] at h
  obtain ⟨_, rfl⟩ := h
  simp [encode, String.fromUTF8]

/-- No two texts have the same encoding. -/
theorem encode_inj {a b : String} (h : encode a = encode b) : a = b := by
  have hdecode := congrArg decode? h
  rwa [decode?_encode, decode?_encode, Option.some.injEq] at hdecode

end KeyedLog.Utf8
