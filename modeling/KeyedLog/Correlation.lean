import KeyedLog.Text.Hex

/-!
# Correlation ids

The id that ties an operation, its record and its answer together. It is any text; one that a
caller did not give is generated.
-/
namespace KeyedLog.Correlation

/-- The name of the header that carries the id. -/
def headerName : String := "Correlation-Id"

/-- The digits of a number in base sixteen, padded with zeros to a width. -/
def hexPadded (width n : Nat) : List Char :=
  let ds := Hex.ofNat n
  List.replicate (width - ds.length) '0' ++ ds

/-- The id with a serial number, in the form of a random one: thirty-two hexadecimal digits in
five groups, of version 4. -/
def generated (serial : Nat) : String :=
  "00000000-0000-4000-8000-" ++ String.ofList (hexPadded 12 serial)

end KeyedLog.Correlation
