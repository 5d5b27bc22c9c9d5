import KeyedLog.Cipher.Aes

/-!
# Padding to whole blocks

Between one and sixteen bytes are added, each of them their number, so that the length is a
multiple of sixteen and the padding can be told apart again.
-/
namespace KeyedLog.Padding

/-- How many bytes are added to a length. -/
def count (length : Nat) : Nat := 16 - length % 16

def pad (bytes : Bytes) : Bytes :=
  bytes ++ List.replicate (count bytes.length) (count bytes.length).toUInt8

/-- The bytes without their padding, if what they end in is padding. -/
def unpad? (bytes : Bytes) : Option Bytes :=
  match bytes.getLast? with
  | none => none
  | some last =>
    let n := last.toNat
    if 1 ≤ n ∧ n ≤ 16 ∧ n ≤ bytes.length then
      let kept := bytes.length - n
      if (bytes.drop kept).all (· == last) then some (bytes.take kept) else none
    else none

end KeyedLog.Padding
