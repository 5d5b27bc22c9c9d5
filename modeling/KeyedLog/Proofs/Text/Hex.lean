import KeyedLog.Proofs.Cipher.Chaining
import KeyedLog.Envelope
import KeyedLog.Text.Blank
import Mathlib

/-!
# Hexadecimal texts

A text is read as bytes exactly if it is what the bytes are written as, in either case of its
letters. So a key has one text up to the case of letters, and the texts of keys are those of
sixty-four digits.
-/
namespace KeyedLog

namespace Text

theorem lower_eq_iff {text other : String} :
    lower text = other ↔ text.toList.map Char.toLower = other.toList := by
  rw [lower, ← String.toList_inj, String.toList_ofList]

/-- Characters of one byte each take as many bytes as they are. -/
theorem utf8ByteSize_of_ascii {text : String} (h : ∀ c ∈ text.toList, c.toNat < 128) :
    text.utf8ByteSize = text.toList.length := by
  have hchars : ∀ cs : List Char, (∀ c ∈ cs, c.toNat < 128) →
      (String.ofList cs).utf8ByteSize = cs.length := by
    intro cs hcs
    induction cs with
    | nil => rfl
    | cons c rest ih =>
      obtain ⟨hc, hrest⟩ := List.forall_mem_cons.mp hcs
      have hsize : c.utf8Size = 1 := by
        rw [Char.utf8Size_eq_one_iff, UInt32.le_iff_toNat_le]
        exact Nat.le_of_lt_succ hc
      have hcons : String.ofList (c :: rest) = String.ofList [c] ++ String.ofList rest := by
        rw [← String.ofList_append, List.singleton_append]
      rw [hcons, String.utf8ByteSize_append, ih hrest, ← String.singleton_eq_ofList,
        String.utf8ByteSize_singleton, hsize, List.length_cons, Nat.add_comm]
  rw [← hchars text.toList h, String.ofList_toList]

end Text

namespace Hex

/-- The digits of hexadecimal texts, in either case. -/
def digits : List Char := "0123456789abcdefABCDEF".toList

variable {c : Char} {n : UInt8} {cs : List Char} {bytes : Bytes}

theorem ascii_of_nibble? (h : nibble? c = some n) : c.toNat < 128 := by
  have hbound : ∀ d : Char, d.toNat < 127 → c ≤ d → c.toNat < 128 := by
    intro d hd hle
    have := UInt32.le_iff_toNat_le.mp (Char.le_def.mp hle)
    exact Nat.lt_succ_of_lt (Nat.lt_of_le_of_lt this hd)
  rw [nibble?] at h
  split at h
  · next hrange => exact hbound '9' (by decide) hrange.2
  · split at h
    · next hrange => exact hbound 'f' (by decide) hrange.2
    · split at h
      · next hrange => exact hbound 'F' (by decide) hrange.2
      · cases h

theorem ascii_of_toLower (h : c.toLower.toNat < 128) : c.toNat < 128 := by
  rw [Char.toLower] at h
  split at h
  · next hupper =>
    have hle := UInt32.le_iff_toNat_le.mp hupper.2
    exact Nat.lt_of_le_of_lt hle (by decide)
  · exact h

theorem nibble?_lt (h : nibble? c = some n) : n < 16 := by
  have hascii : ∀ k < 128, (nibble? (Char.ofNat k)).all fun m => decide (m < 16) := by decide
  have hvalue := hascii c.toNat (ascii_of_nibble? h)
  rw [Char.ofNat_toNat, h] at hvalue
  exact of_decide_eq_true hvalue

/-- A digit has the value of the one that is written for it. -/
theorem nibble?_eq_some_iff (hn : n < 16) : nibble? c = some n ↔ c.toLower = digit n := by
  have hascii : ∀ k < 128, ∀ m < 16, nibble? (Char.ofNat k) = some (UInt8.ofNat m) ↔
      (Char.ofNat k).toLower = digit (UInt8.ofNat m) := by decide +kernel
  have hdigit : ∀ m < 16, (digit (UInt8.ofNat m)).toNat < 128 := by decide
  have hlt : n.toNat < 16 := by simpa [UInt8.lt_iff_toNat_lt] using hn
  have hc : c.toNat < 128 → (nibble? c = some n ↔ c.toLower = digit n) := by
    intro hc
    simpa using hascii c.toNat hc n.toNat hlt
  refine ⟨fun h => (hc (ascii_of_nibble? h)).mp h, fun h => (hc (ascii_of_toLower ?_)).mpr h⟩
  rw [h]
  simpa using hdigit n.toNat hlt

theorem nibble?_isSome_iff : (nibble? c).isSome ↔ c ∈ digits := by
  have hascii : ∀ k < 128, (nibble? (Char.ofNat k)).isSome → Char.ofNat k ∈ digits := by
    decide +kernel
  have hdigits : ∀ d ∈ digits, (nibble? d).isSome := List.all_eq_true.mp (by decide)
  constructor
  · intro h
    obtain ⟨n, hn⟩ := Option.isSome_iff_exists.mp h
    have hmem := hascii c.toNat (ascii_of_nibble? hn)
    rw [Char.ofNat_toNat] at hmem
    exact hmem h
  · exact hdigits c

/-- Two digits are those of a byte if they are its two halves. -/
theorem halves_eq_iff {high low b : UInt8} (hhigh : high < 16) (hlow : low < 16) :
    16 * high + low = b ↔ high = b / 16 ∧ low = b % 16 := by
  have hb := b.toNat_lt
  simp only [UInt8.lt_iff_toNat_lt, UInt8.reduceToNat] at hhigh hlow
  simp only [← UInt8.toNat_inj, UInt8.toNat_add, UInt8.toNat_mul, UInt8.toNat_div, UInt8.toNat_mod,
    UInt8.reduceToNat]
  omega

theorem half_lt (b : UInt8) : b / 16 < 16 ∧ b % 16 < 16 := by
  have hb := b.toNat_lt
  simp only [UInt8.lt_iff_toNat_lt, UInt8.toNat_div, UInt8.toNat_mod, UInt8.reduceToNat]
  omega

theorem length_flatMap_pair (bytes : Bytes) : (bytes.flatMap pair).length = 2 * bytes.length := by
  induction bytes with
  | nil => rfl
  | cons b rest ih =>
    rw [List.flatMap_cons, List.length_append, ih, List.length_cons, pair]
    simp only [List.length_cons, List.length_nil]
    omega

theorem pairs?_cons_cons {high low : Char} {rest : List Char} :
    pairs? (high :: low :: rest) = some bytes ↔ ∃ h l more, nibble? high = some h ∧
      nibble? low = some l ∧ pairs? rest = some more ∧ (16 * h + l) :: more = bytes := by
  rw [pairs?]
  cases nibble? high <;> cases nibble? low <;> cases pairs? rest <;> simp

/-- Pairs of digits are read as the bytes that are written so. -/
theorem pairs?_eq_some_iff : pairs? cs = some bytes ↔ cs.map Char.toLower = bytes.flatMap pair := by
  induction cs using List.twoStepInduction generalizing bytes with
  | nil => cases bytes <;> simp [pairs?, pair]
  | singleton c => cases bytes <;> simp [pairs?, pair]
  | cons_cons high low rest ih =>
    rw [pairs?_cons_cons]
    cases bytes with
    | nil => simp
    | cons b bytes =>
      obtain ⟨hhigh, hlow⟩ := half_lt b
      have hwritten : (high :: low :: rest).map Char.toLower = (b :: bytes).flatMap pair ↔
          nibble? high = some (b / 16) ∧ nibble? low = some (b % 16) ∧
            pairs? rest = some bytes := by
        simp [nibble?_eq_some_iff hhigh, nibble?_eq_some_iff hlow, ih, pair]
      rw [hwritten]
      constructor
      · rintro ⟨n, m, more, hn, hm, hmore, heq⟩
        obtain ⟨hb, rfl⟩ := List.cons.inj heq
        obtain ⟨rfl, rfl⟩ := (halves_eq_iff (nibble?_lt hn) (nibble?_lt hm)).mp hb
        exact ⟨hn, hm, hmore⟩
      · rintro ⟨hn, hm, hmore⟩
        exact ⟨_, _, _, hn, hm, hmore, by rw [(halves_eq_iff hhigh hlow).mpr ⟨rfl, rfl⟩]⟩

/-- Whatever consists of digits in pairs is read. -/
theorem pairs?_ok_iff :
    (∃ bytes, pairs? cs = some bytes) ↔ (∃ k, cs.length = 2 * k) ∧ ∀ c ∈ cs, c ∈ digits := by
  induction cs using List.twoStepInduction with
  | nil => exact iff_of_true ⟨[], rfl⟩ ⟨⟨0, rfl⟩, nofun⟩
  | singleton c =>
    refine iff_of_false (by simp [pairs?]) ?_
    rintro ⟨⟨k, hk⟩, -⟩
    rw [List.length_singleton] at hk
    omega
  | cons_cons high low rest ih =>
    have hlength : (∃ k, (high :: low :: rest).length = 2 * k) ↔ ∃ k, rest.length = 2 * k := by
      constructor
      · rintro ⟨k, hk⟩
        simp only [List.length_cons] at hk
        exact ⟨k - 1, by omega⟩
      · rintro ⟨k, hk⟩
        exact ⟨k + 1, by simp only [List.length_cons]; omega⟩
    have hread : (∃ bytes, pairs? (high :: low :: rest) = some bytes) ↔
        (nibble? high).isSome ∧ (nibble? low).isSome ∧ ∃ bytes, pairs? rest = some bytes := by
      simp only [pairs?_cons_cons, Option.isSome_iff_exists]
      constructor
      · rintro ⟨-, h, l, more, hh, hl, hmore, -⟩
        exact ⟨⟨h, hh⟩, ⟨l, hl⟩, more, hmore⟩
      · rintro ⟨⟨h, hh⟩, ⟨l, hl⟩, more, hmore⟩
        exact ⟨_, h, l, more, hh, hl, hmore, rfl⟩
    rw [hread, hlength, ih, nibble?_isSome_iff, nibble?_isSome_iff, List.forall_mem_cons,
      List.forall_mem_cons]
    constructor
    · rintro ⟨hhigh, hlow, heven, hrest⟩
      exact ⟨heven, hhigh, hlow, hrest⟩
    · rintro ⟨heven, hhigh, hlow, hrest⟩
      exact ⟨hhigh, hlow, heven, hrest⟩

/-- A text is read as bytes exactly if they are written as it, but for the case of its letters. -/
theorem decode?_eq_some_iff {text : String} :
    decode? text = some bytes ↔ Text.lower text = encode bytes := by
  rw [decode?, pairs?_eq_some_iff, Text.lower_eq_iff, encode, String.toList_ofList]

end Hex

namespace Aes.Key

/-- The thirty-two bytes of a key. -/
def bytes (key : Key) : Bytes := key.upper.toList ++ key.lower.toList

/-- The rule for the text of a key: sixty-four digits and nothing else. -/
def IsText (text : String) : Prop := text.toList.length = 64 ∧ ∀ c ∈ text.toList, c ∈ Hex.digits

instance (text : String) : Decidable (IsText text) :=
  decidable_of_iff (text.toList.length = 64 ∧ text.toList.all Hex.digits.contains)
    (by simp only [IsText, List.all_eq_true, List.contains_iff_mem])

variable {key : Key} {text : String}

theorem ofBytes?_eq_some_iff {upper lower : Block} {bytes : Bytes} :
    Block.ofBytes? bytes = some [upper, lower] ↔ bytes = Key.bytes ⟨upper, lower⟩ := by
  rw [Block.ofBytes?_eq_some_iff, Key.bytes, List.flatMap_cons, List.flatMap_singleton]

theorem utf8ByteSize_of_isText (h : IsText text) : text.utf8ByteSize = 64 := by
  have hascii : ∀ c ∈ text.toList, c.toNat < 128 := by
    intro c hc
    obtain ⟨n, hn⟩ := Option.isSome_iff_exists.mp (Hex.nibble?_isSome_iff.mpr (h.2 c hc))
    exact Hex.ascii_of_nibble? hn
  rw [Text.utf8ByteSize_of_ascii hascii, h.1]

/-- What is written for a key is the text of a key, but for the case of its letters. -/
theorem isText_of_lower (h : Text.lower text = Hex.encode key.bytes) : IsText text := by
  have hpairs := Hex.decode?_eq_some_iff.mpr h
  refine ⟨?_, (Hex.pairs?_ok_iff.mp ⟨_, hpairs⟩).2⟩
  have hlength := congrArg List.length (Hex.pairs?_eq_some_iff.mp hpairs)
  rwa [List.length_map, Hex.length_flatMap_pair] at hlength

/-- A key is read from exactly the texts its bytes are written as. -/
theorem ofHex_eq_ok_iff : ofHex text = .ok key ↔ Text.lower text = Hex.encode key.bytes := by
  constructor
  · intro h
    rw [ofHex] at h
    split at h
    · cases h
    · split at h
      · next upper lower hread =>
        obtain rfl := Except.ok.inj h
        obtain ⟨bytes, hbytes, hblocks⟩ := Option.bind_eq_some_iff.mp hread
        obtain rfl := ofBytes?_eq_some_iff.mp hblocks
        exact Hex.decode?_eq_some_iff.mp hbytes
      · cases h
  · intro h
    have hsize := utf8ByteSize_of_isText (isText_of_lower h)
    rw [ofHex, if_neg (not_not.mpr hsize), Hex.decode?_eq_some_iff.mpr h, Option.bind_some,
      ofBytes?_eq_some_iff.mpr rfl]

/-- Exactly the texts of the rule are read as keys. -/
theorem ofHex_ok_iff : (∃ key, ofHex text = .ok key) ↔ IsText text := by
  constructor
  · rintro ⟨key, h⟩
    exact isText_of_lower (ofHex_eq_ok_iff.mp h)
  · intro h
    obtain ⟨bytes, hbytes⟩ := Hex.pairs?_ok_iff.mpr ⟨⟨32, h.1⟩, h.2⟩
    have hlength := congrArg List.length (Hex.pairs?_eq_some_iff.mp hbytes)
    rw [List.length_map, Hex.length_flatMap_pair, h.1] at hlength
    have hfirst : (bytes.take 16).length = 16 := by
      rw [List.length_take]
      omega
    have hlast : (bytes.drop 16).length = 16 := by
      rw [List.length_drop]
      omega
    obtain ⟨upper, hupper⟩ := Block.exists_toList hfirst
    obtain ⟨lower, hlower⟩ := Block.exists_toList hlast
    refine ⟨⟨upper, lower⟩, ofHex_eq_ok_iff.mpr (Hex.decode?_eq_some_iff.mp ?_)⟩
    rw [Key.bytes, hupper, hlower, List.take_append_drop]
    exact hbytes

end Aes.Key

end KeyedLog
