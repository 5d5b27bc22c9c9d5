import KeyedLog.Cipher.Chaining
import KeyedLog.Cipher.Padding
import KeyedLog.Text.Base64

/-!
# Envelopes

What keys, values and headers are wrapped in on the log. A disabled envelope changes nothing. An
enabled one encrypts under its key, with a fresh initial block in front of each encrypted text;
sealed header names and values are written in base64. The initial block is drawn at random, and
where there is none to be drawn nothing is sealed.
-/
namespace KeyedLog

/-- What drawing an initial block comes to: the block, or the reason there is none. -/
abbrev Aes.Draw := Except String Aes.Block

open Aes (Block Draw)

/-- Why a text is no key. -/
inductive KeyFault where
  | length (bytes : Nat)
  | digits
  deriving DecidableEq, Repr

def KeyFault.message : KeyFault → String
  | .length bytes => "must be 64 hex characters (256 bits), got " ++ Decimal.ofNat bytes
  | .digits => "contains characters outside 0-9a-fA-F"

inductive CryptoError where
  | invalidKey (fault : KeyFault)
  | emptyPlaintext
  | tooShort (length : Nat)
  | decrypt
  | headerEncoding (fault : Base64.Fault)
  | headerText
  | random (reason : String)
  deriving DecidableEq, Repr

def CryptoError.message : CryptoError → String
  | .invalidKey fault => "encryption key " ++ fault.message
  | .emptyPlaintext => "cannot encrypt an empty payload"
  | .tooShort length =>
    "ciphertext must be longer than 17 bytes, got " ++ Decimal.ofNat length
  | .decrypt => "decryption failed: Unpad Error"
  | .headerEncoding fault => "header is not valid base64: " ++ fault.message
  | .headerText => "decrypted header name is not UTF-8"
  | .random reason => "random source unavailable: " ++ reason

namespace Aes.Key

/-- The key that sixty-four hexadecimal digits of either case denote. -/
def ofHex (text : String) : Except CryptoError Key :=
  let length := text.utf8ByteSize
  if length ≠ 64 then .error (.invalidKey (.length length))
  else
    match (Hex.decode? text).bind Block.ofBytes? with
    | some [upper, lower] => .ok ⟨upper, lower⟩
    | _ => .error (.invalidKey .digits)

/-- Encrypt a payload that is not empty, after an initial block that is drawn for it and put in
front. -/
def encrypt (k : Key) (draw : Draw) (plain : Bytes) : Except CryptoError Bytes :=
  if plain.isEmpty then .error .emptyPlaintext
  else
    match draw with
    | .error reason => .error (.random reason)
    | .ok initial =>
      let blocks := (Block.ofBytes? (Padding.pad plain)).getD []
      .ok (initial.toList ++
        (Chaining.encrypt (Aes.encrypt k.schedule) initial blocks).flatMap Block.toList)

/-- Undo `encrypt`. -/
def decrypt (k : Key) (text : Bytes) : Except CryptoError Bytes :=
  if text.length ≤ 17 then .error (.tooShort text.length)
  else
    match Block.ofBytes? text with
    | some (initial :: blocks) =>
      match Padding.unpad?
          ((Chaining.decrypt (Aes.decrypt k.schedule) initial blocks).flatMap Block.toList) with
      | some plain => .ok plain
      | none => .error .decrypt
    | _ => .error .decrypt

end Aes.Key

inductive Envelope where
  | disabled
  | enabled (key : Aes.Key)
  deriving DecidableEq, Repr

namespace Envelope

def isEnabled : Envelope → Bool
  | disabled => false
  | enabled _ => true

/-- Seal a key or a value. -/
def sealed (draw : Draw) (payload : Bytes) : Envelope → Except CryptoError Bytes
  | disabled => .ok payload
  | enabled key => key.encrypt draw payload

/-- Open a key or a value. -/
def opened (payload : Bytes) : Envelope → Except CryptoError Bytes
  | disabled => .ok payload
  | enabled key => key.decrypt payload

/-- Seal the name of a header. -/
def sealedName (draw : Draw) (name : String) : Envelope → Except CryptoError String
  | disabled => .ok name
  | enabled key => (key.encrypt draw (Utf8.encode name)).map Base64.encodeText

/-- Open the name of a header. -/
def openedName (name : String) : Envelope → Except CryptoError String
  | disabled => .ok name
  | enabled key =>
    match Base64.decodeText name with
    | .error fault => .error (.headerEncoding fault)
    | .ok raw =>
      match key.decrypt raw with
      | .error e => .error e
      | .ok plain =>
        match Utf8.decode? plain with
        | some text => .ok text
        | none => .error .headerText

/-- Seal the value of a header. -/
def sealedValue (draw : Draw) (value : Bytes) : Envelope → Except CryptoError Bytes
  | disabled => .ok value
  | enabled key => (key.encrypt draw value).map Base64.encode

/-- Open the value of a header. -/
def openedValue (value : Bytes) : Envelope → Except CryptoError Bytes
  | disabled => .ok value
  | enabled key =>
    match Base64.decode value with
    | .error fault => .error (.headerEncoding fault)
    | .ok raw => key.decrypt raw

end Envelope

end KeyedLog
