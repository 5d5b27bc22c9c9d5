import KeyedLog.Text.Hex

/-!
# Key digests

A short digest puts keys into buckets: the first three bytes, low byte first, of the checksum
CRC-32 of the key, in hexadecimal. Different keys may share a digest.
-/
namespace KeyedLog.Digest

/-- Shift one bit out, folding the reversed polynomial in where the bit was set. -/
def shift (c : UInt32) : UInt32 :=
  if c % 2 = 1 then (c >>> 1) ^^^ 0xEDB88320 else c >>> 1

def absorb (c : UInt32) (b : UInt8) : UInt32 :=
  shift (shift (shift (shift (shift (shift (shift (shift (c ^^^ b.toUInt32))))))))

/-- The checksum CRC-32 with the reversed polynomial 0xEDB88320. -/
def crc32 (bytes : Bytes) : UInt32 := bytes.foldl absorb 0xFFFFFFFF ^^^ 0xFFFFFFFF

/-- The first three bytes of the checksum, low byte first. -/
def lowBytes (c : UInt32) : Bytes := [c.toUInt8, (c >>> 8).toUInt8, (c >>> 16).toUInt8]

end KeyedLog.Digest

/-- The digest of a key: six lower-case hexadecimal digits. -/
def KeyedLog.digest (key : KeyedLog.Bytes) : String :=
  Hex.encode (Digest.lowBytes (Digest.crc32 key))
