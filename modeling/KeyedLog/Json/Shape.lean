import KeyedLog.Json.Scan

/-!
# Records in JSON

A record is read from an object with named members, or from an array with its members in order.
The text is read once from the left, so the first thing wrong with it decides how it is refused.
-/
namespace KeyedLog.Json

/-- The shape of one member. -/
inductive Shape where
  | text
  | integer (low high : Int)
  /-- An object whose members are texts, or `null`; it may be left out. -/
  | optionalTexts
  deriving DecidableEq, Repr

inductive Value where
  | text (s : String)
  | integer (n : Int)
  | texts (members : Option (List (String × String)))
  deriving DecidableEq, Repr

structure Member where
  name : String
  shape : Shape
  deriving DecidableEq, Repr

/-- What a member is when it is left out, if it may be. -/
def Shape.default? : Shape → Option Value
  | optionalTexts => some (.texts none)
  | _ => none

/-- Read a member's name and stop before the colon. The first member follows the bracket, others
a comma. No name is read at the closing bracket. -/
def memberName (isFirst : Bool) (bytes : Bytes) : Read (Option String) :=
  let quoted (bytes : Bytes) : Read (Option String) :=
    match skipBlank bytes with
    | 0x22 :: rest => (textAfterQuote rest).map fun (name, rest) => (some name, rest)
    | _ => .error .malformed
  match skipBlank bytes with
  | 0x7d :: rest => .ok (none, rest)
  | 0x2c :: rest => if isFirst then .error .malformed else quoted rest
  | bytes => if isFirst then quoted bytes else .error .malformed

/-- Read the colon after a name. -/
def colon (bytes : Bytes) : Read Unit :=
  match skipBlank bytes with
  | 0x3a :: rest => .ok ((), rest)
  | _ => .error .malformed

/-- Read the members of an object of texts; a name that repeats keeps its last text. -/
def textMembers : (bound : Nat) → (isFirst : Bool) → List (String × String) → Bytes →
    Read (List (String × String))
  | 0, _, _, _ => .error .malformed
  | bound + 1, isFirst, found, bytes =>
    match memberName isFirst bytes with
    | .error e => .error e
    | .ok (none, rest) => .ok (found, rest)
    | .ok (some name, rest) =>
      match colon rest with
      | .error e => .error e
      | .ok ((), rest) =>
        match text rest with
        | .error e => .error e
        | .ok (value, rest) =>
          textMembers bound false ((name, value) :: found.filter (·.1 ≠ name)) rest

/-- Named texts in the order of the bytes of their names. -/
def sortedByName (members : List (String × String)) : List (String × String) :=
  members.mergeSort fun a b => a.1 ≤ b.1

/-- Read a value of a shape. -/
def value (shape : Shape) (bytes : Bytes) : Read Value :=
  match shape with
  | .text => (text bytes).map fun (s, rest) => (.text s, rest)
  | .integer low high => (integer low high bytes).map fun (n, rest) => (.integer n, rest)
  | .optionalTexts =>
    match skipBlank bytes with
    | 0x6e :: rest => (word "null" (0x6e :: rest)).map fun ((), rest) => (.texts none, rest)
    | 0x7b :: rest =>
      (textMembers (rest.length + 1) true [] rest).map fun (members, rest) =>
        (.texts (some (sortedByName members)), rest)
    | _ => .error (refuse bytes)

/-- The values of all members, if none is left out that must not be. -/
def complete (found : List (String × Value)) : List Member → Except Fault (List Value)
  | [] => .ok []
  | m :: rest =>
    match found.lookup m.name, m.shape.default? with
    | some v, _ => (complete found rest).map (v :: ·)
    | none, some v => (complete found rest).map (v :: ·)
    | none, none => .error .mistyped

/-- Read the members of an object. Members that are not wanted are passed over, and one that is
wanted may not come twice. -/
def namedMembers (members : List Member) : (bound : Nat) → (isFirst : Bool) →
    List (String × Value) → Bytes → Read (List Value)
  | 0, _, _, _ => .error .malformed
  | bound + 1, isFirst, found, bytes =>
    match memberName isFirst bytes with
    | .error e => .error e
    | .ok (none, rest) => (complete found members).map fun values => (values, rest)
    | .ok (some name, rest) =>
      match members.find? (·.name = name) with
      | none =>
        match colon rest with
        | .error e => .error e
        | .ok ((), rest) =>
          match skipValue rest with
          | .error e => .error e
          | .ok ((), rest) => namedMembers members bound false found rest
      | some m =>
        if (found.lookup name).isSome then .error .mistyped
        else
          match colon rest with
          | .error e => .error e
          | .ok ((), rest) =>
            match value m.shape rest with
            | .error e => .error e
            | .ok (v, rest) => namedMembers members bound false ((name, v) :: found) rest

/-- Read the closing bracket of an array. -/
def arrayEnd (bytes : Bytes) : Read Unit :=
  match skipBlank bytes with
  | 0x5d :: rest => .ok ((), rest)
  | _ => .error .malformed

/-- Read the elements of an array in the order of the members. -/
def orderedMembers (isFirst : Bool) : List Member → Bytes → Read (List Value)
  | [], bytes => (arrayEnd bytes).map fun ((), rest) => ([], rest)
  | m :: members, bytes =>
    match skipBlank bytes with
    | 0x5d :: _ =>
      match (m :: members).mapM (·.shape.default?) with
      | some values => (arrayEnd bytes).map fun ((), rest) => (values, rest)
      | none => .error .mistyped
    | 0x2c :: rest =>
      if isFirst then .error .malformed
      else
        match skipBlank rest with
        | 0x5d :: _ => .error .malformed
        | _ => element m members rest
    | bytes => if isFirst then element m members bytes else .error .malformed
where
  element (m : Member) (members : List Member) (bytes : Bytes) : Read (List Value) :=
    match value m.shape bytes with
    | .error e => .error e
    | .ok (v, rest) =>
      match orderedMembers false members rest with
      | .error e => .error e
      | .ok (values, rest) => .ok (v :: values, rest)

/-- Read a record. -/
def record (members : List Member) (bytes : Bytes) : Read (List Value) :=
  match skipBlank bytes with
  | 0x7b :: rest => namedMembers members (rest.length + 1) true [] rest
  | 0x5b :: rest => orderedMembers true members rest
  | _ => .error (refuse bytes)

/-- Read a record that is the whole text. -/
def wholeRecord (members : List Member) (bytes : Bytes) : Except Fault (List Value) :=
  match record members bytes with
  | .error e => .error e
  | .ok (values, rest) => if atEnd rest then .ok values else .error .malformed

/-- Read the texts of an array after its first bracket. -/
def textElements :
    (bound : Nat) → (isFirst : Bool) → List String → Bytes → Read (List String)
  | 0, _, _, _ => .error .malformed
  | bound + 1, isFirst, found, bytes =>
    match skipBlank bytes with
    | 0x5d :: rest => .ok (found.reverse, rest)
    | 0x2c :: rest =>
      if isFirst then .error .malformed
      else
        match skipBlank rest with
        | 0x5d :: _ => .error .malformed
        | _ => element bound found rest
    | bytes => if isFirst then element bound found bytes else .error .malformed
where
  element (bound : Nat) (found : List String) (bytes : Bytes) : Read (List String) :=
    match text bytes with
    | .error e => .error e
    | .ok (s, rest) => textElements bound false (s :: found) rest

/-- The texts of an array that is the whole text. -/
def wholeTexts (bytes : Bytes) : Except Fault (List String) :=
  match skipBlank bytes with
  | 0x5b :: rest =>
    match textElements (rest.length + 1) true [] rest with
    | .error e => .error e
    | .ok (texts, rest) => if atEnd rest then .ok texts else .error .malformed
  | _ => .error (refuse bytes)

end KeyedLog.Json
