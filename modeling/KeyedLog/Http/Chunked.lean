import KeyedLog.Http.Head
import KeyedLog.Text.Decimal

/-!
# Bodies in chunks

Each chunk has its size in front of it. The chunk of size zero is the last one; header lines may
follow it, up to an empty line.
-/
namespace KeyedLog.Http.Chunked

/-- A place in a body of chunks. -/
inductive Place where
  | start
  | size (n : Nat)
  | sizeSpace (n : Nat)
  | extension (n : Nat)
  | sizeEnd (n : Nat)
  | data (left : Nat)
  | dataEnd
  | dataFeed
  | lastLine
  | trailer
  | trailerFeed
  | lastFeed
  deriving DecidableEq, Repr

/-- What follows a chunk's size, once it is read. -/
def afterSize (n : Nat) (b : UInt8) : Option Place :=
  if isSpace b then some (.sizeSpace n)
  else if b = 0x3b then some (.extension n)
  else if b = 0x0d then some (.sizeEnd n)
  else none

def addDigit (n : Nat) (b : UInt8) : Option Place :=
  match Hex.nibble? (Char.ofNat b.toNat) with
  | some d => if 16 * n + d.toNat ≤ Decimal.maxU64 then some (.size (16 * n + d.toNat)) else none
  | none => none

/-- Go one byte on. A chunk's data and the trailing lines are passed over. -/
def Place.next? (b : UInt8) : Place → Option Place
  | start => addDigit 0 b
  | size n => if (Hex.nibble? (Char.ofNat b.toNat)).isSome then addDigit n b else afterSize n b
  | sizeSpace n => afterSize n b
  | extension n =>
    if b = 0x0d then some (.sizeEnd n) else if b = 0x0a then none else some (.extension n)
  | sizeEnd n =>
    if b ≠ 0x0a then none else if n = 0 then some .lastLine else some (.data n)
  | data left => if left ≤ 1 then some .dataEnd else some (.data (left - 1))
  | dataEnd => if b = 0x0d then some .dataFeed else none
  | dataFeed => if b = 0x0a then some .start else none
  | lastLine => if b = 0x0d then some .lastFeed else some .trailer
  | trailer => if b = 0x0d then some .trailerFeed else some .trailer
  | trailerFeed => if b = 0x0a then some .lastLine else none
  | lastFeed => none

/-- Whether trailing lines are sound header lines. -/
def isTrailer (bytes : Bytes) : Bool :=
  bytes = [] || ((headLines? [] bytes).bind fun (lines, _) => fields? lines).isSome

/-- The data of all chunks, if they are complete, where the data and the trailing lines read so far
are given, the last byte first. -/
def read? : Place → (data trailer : Bytes) → Bytes → Option Bytes
  | _, _, _, [] => none
  | .lastFeed, data, trailer, b :: _ =>
    let whole := if trailer = [0x0d] then [] else (b :: trailer).reverse
    if b = 0x0a ∧ isTrailer whole then some data.reverse else none
  | place, data, trailer, b :: rest =>
    match place.next? b with
    | none => none
    | some next =>
      match place with
      | .data _ => read? next (b :: data) trailer rest
      | .lastLine | .trailer | .trailerFeed => read? next data (b :: trailer) rest
      | _ => read? next data trailer rest

end KeyedLog.Http.Chunked
