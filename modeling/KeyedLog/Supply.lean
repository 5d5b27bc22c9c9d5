import KeyedLog.Correlation
import KeyedLog.Envelope

/-!
# Supplies

What nobody names and has to be made up: the initial blocks of sealed texts, and the ids of
operations whose caller gives none. Both come from a supply, which is asked for one after another.
-/
namespace KeyedLog

structure Supply where
  /-- The initial block with a serial number, if it can be drawn. -/
  blocks : Nat → Aes.Draw
  /-- The correlation id with a serial number. -/
  ids : Nat → String

/-- The initial block that bears a serial number. -/
def Aes.Block.serial (n : Nat) : Aes.Block :=
  let byte (k : Nat) : UInt8 := (n >>> (8 * k)).toUInt8
  ⟨⟨0x5a, 0, 0, 0⟩, ⟨0, 0, 0, 0⟩, ⟨byte 7, byte 6, byte 5, byte 4⟩,
    ⟨byte 3, byte 2, byte 1, byte 0⟩⟩

/-- The supply that only counts. -/
def Supply.serial : Supply := ⟨fun n => .ok (.serial n), Correlation.generated⟩

end KeyedLog
