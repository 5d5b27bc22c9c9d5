import KeyedLog.FileTree.Steps
import KeyedLog.Text.Decimal

/-!
# Slots

The keys that share a digest are kept side by side in numbered slots of one directory. The files
of slot `n` are `n.key`, `n.value` and `n.correlationId`.
-/
namespace KeyedLog.Slot

def keyExtension : String := "key"
def valueExtension : String := "value"
def correlationExtension : String := "correlationId"

/-- The file of a slot with an extension. -/
def file (directory : Location) (n : Nat) (extension : String) : Location :=
  directory.join (Decimal.ofNat n ++ "." ++ extension)

/-- The number a numeral without sign or leading zeros stands for, if it fits thirty-two bits. -/
def number? (stem : String) : Option Nat :=
  match Decimal.readU32 stem with
  | .ok n => if Decimal.ofNat n = stem then some n else none
  | .error _ => none

/-- Put a number in its place among ascending numbers, unless it is there. -/
def insert (n : Nat) : List Nat → List Nat
  | [] => [n]
  | m :: rest =>
    if n < m then n :: m :: rest
    else if n = m then m :: rest
    else m :: insert n rest

/-- The numbers of the slots whose key files are listed, ascending. A key file whose name is no
slot number means that the directory was tampered with. -/
def scanNames (directory : Location) : List String → List Nat → Except StateError (List Nat)
  | [], found => .ok found
  | name :: rest, found =>
    match Text.stemAndExtension name with
    | (stem, some extension) =>
      if extension = keyExtension then
        match number? stem with
        | some n => scanNames directory rest (insert n found)
        | none => .error (.corrupt (directory.join name).text "key file name is not a slot number")
      else scanNames directory rest found
    | (_, none) => scanNames directory rest found

/-- The slots of a directory, ascending. -/
def scan (t : FileTree) (directory : Location) : Except StateError (List Nat) :=
  match t.list directory.path with
  | .error e => .error (.io directory.text e)
  | .ok names => scanNames directory names []

def readAt (t : FileTree) (l : Location) : Except StateError Bytes :=
  (t.read l.path).mapError (.io l.text)

/-- The first slot that holds a key. -/
def find (t : FileTree) (directory : Location) (key : Bytes) :
    List Nat → Except StateError (Option Nat)
  | [] => .ok none
  | n :: rest =>
    match readAt t (file directory n keyExtension) with
    | .error e => .error e
    | .ok held => if held = key then .ok (some n) else find t directory key rest

/-- The least number from a candidate on that ascending numbers leave free. -/
def freeFrom (candidate : Nat) : List Nat → Nat
  | [] => candidate
  | n :: rest => if n = candidate then freeFrom (candidate + 1) rest else candidate

/-- The least number not among ascending numbers. -/
def lowestFree (slots : List Nat) : Nat := freeFrom 0 slots

end KeyedLog.Slot
