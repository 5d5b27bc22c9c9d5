import KeyedLog.Correlation
import KeyedLog.Json.Shape
import KeyedLog.Position

/-!
# Writing JSON

Texts and positions as JSON. Only quotes, backslashes and control characters are escaped.
-/
namespace KeyedLog.Json

def escaped (c : Char) : List Char :=
  if c = '"' then ['\\', '"']
  else if c = '\\' then ['\\', '\\']
  else if c = '\x08' then ['\\', 'b']
  else if c = '\x0c' then ['\\', 'f']
  else if c = '\n' then ['\\', 'n']
  else if c = '\r' then ['\\', 'r']
  else if c = '\t' then ['\\', 't']
  else if c.toNat < 0x20 then ['\\', 'u'] ++ Correlation.hexPadded 4 c.toNat
  else [c]

/-- A text as a JSON string. -/
def quote (s : String) : String := String.ofList ('"' :: s.toList.flatMap escaped ++ ['"'])

/-- The members of a position. -/
def positionMembers : List Member :=
  [⟨"topic", .text⟩, ⟨"partition", .integer Decimal.minI32 Decimal.maxI32⟩,
   ⟨"offset", .integer Decimal.minI64 Decimal.maxI64⟩]

/-- Read a position. -/
def position (bytes : Bytes) : Except Fault Position :=
  match wholeRecord positionMembers bytes with
  | .error e => .error e
  | .ok [.text topic, .integer partition, .integer offset] => .ok ⟨topic, partition, offset⟩
  | .ok _ => .error .mistyped

end KeyedLog.Json
