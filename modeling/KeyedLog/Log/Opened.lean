import KeyedLog.Envelope
import KeyedLog.Record

/-!
# Records looked into

The parts of a record as they lie on the log, and what an envelope makes of them.
-/
namespace KeyedLog

/-- A sealed part: how long it is, and what it holds. -/
structure OpenedPart where
  length : Nat
  content : Except CryptoError Bytes
  deriving Repr

structure OpenedRecord where
  offset : Int
  key : OpenedPart
  value : Option OpenedPart
  headers : List (OpenedPart × OpenedPart)
  deriving Repr

namespace Envelope

def lookIntoHeader (e : Envelope) (h : Header) : OpenedPart × OpenedPart :=
  (⟨(Utf8.encode h.1).length, (e.openedName h.1).map Utf8.encode⟩,
    ⟨h.2.length, e.openedValue h.2⟩)

def lookInto (e : Envelope) (r : Record) : OpenedRecord where
  offset := r.offset
  key := ⟨r.key.length, e.opened r.key⟩
  value := r.value.map fun value => ⟨value.length, e.opened value⟩
  headers := r.headers.map e.lookIntoHeader

end Envelope

end KeyedLog
