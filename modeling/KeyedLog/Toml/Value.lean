import KeyedLog.Text.Decimal
import KeyedLog.Toml.Token

/-!
# Values of TOML

Numbers keep no more than a configuration needs of them: integers their value, other numbers that
they are none. A moment keeps its text in normal form.
-/
namespace KeyedLog.Toml

inductive Value where
  | text (s : String)
  | integer (n : Int)
  | real
  | boolean (b : Bool)
  | moment (s : String)
  | array (elements : List Value)
  | table (members : List (String × Value))

/-- Read digits that may have single underscores between them. -/
def digitsWith (isDigit : Char → Bool) (cs : List Char) : Option (List Char × List Char) :=
  let (word, rest) := cs.span fun c => isDigit c || c == '_'
  let sound := word.head?.any isDigit && word.getLast?.any isDigit &&
    (word.zip (word.drop 1)).all fun (a, b) => isDigit a || isDigit b
  if sound then some (word.filter isDigit, rest) else none

def isDecimal (c : Char) : Bool := '0' ≤ c && c ≤ '9'

def natOf (base : Nat) (digits : List Char) : Nat :=
  digits.foldl (fun n c => base * n + ((Hex.nibble? c).map UInt8.toNat).getD 0) 0

/-- An integer, if it fits sixty-four bits with a sign. -/
def bounded? (n : Int) : Option Value :=
  if Decimal.minI64 ≤ n ∧ n ≤ Decimal.maxI64 then some (.integer n) else none

/-- Read an integer in base two, eight or sixteen after its mark. -/
def based? (base : Nat) (isDigit : Char → Bool) (cs : List Char) : Option (Value × List Char) :=
  match digitsWith isDigit cs with
  | none => none
  | some (ds, rest) => (bounded? (natOf base ds)).map fun v => (v, rest)

/-- Read an exponent after its letter. -/
def exponent? (cs : List Char) : Option (List Char) :=
  let cs := match cs with
    | '+' :: rest => rest
    | '-' :: rest => rest
    | _ => cs
  (digitsWith isDecimal cs).map Prod.snd

/-- Read what makes a number more than an integer, if anything does. -/
def fraction? (cs : List Char) : Option (Bool × List Char) :=
  let exponent (real : Bool) (cs : List Char) : Option (Bool × List Char) :=
    match cs with
    | 'e' :: rest => (exponent? rest).map (true, ·)
    | 'E' :: rest => (exponent? rest).map (true, ·)
    | _ => some (real, cs)
  match cs with
  | '.' :: rest =>
    match digitsWith isDecimal rest with
    | some (_, rest) => exponent true rest
    | none => none
  | _ => exponent false cs

/-- Read a number after its sign. -/
def unsigned? (negative : Bool) (cs : List Char) : Option (Value × List Char) :=
  match cs with
  | 'i' :: 'n' :: 'f' :: rest => some (.real, rest)
  | 'n' :: 'a' :: 'n' :: rest => some (.real, rest)
  | _ =>
    match digitsWith isDecimal cs with
    | none => none
    | some (ds, rest) =>
      if ds.head? = some '0' ∧ ds.length ≠ 1 then none
      else
        match fraction? rest with
        | none => none
        | some (true, rest) => some (.real, rest)
        | some (false, rest) =>
          let n : Int := natOf 10 ds
          (bounded? (if negative then -n else n)).map fun v => (v, rest)

def number? (cs : List Char) : Option (Value × List Char) :=
  match cs with
  | '+' :: rest => unsigned? false rest
  | '-' :: rest => unsigned? true rest
  | '0' :: 'x' :: rest => based? 16 Hex.isDigit rest
  | '0' :: 'o' :: rest => based? 8 (fun c => '0' ≤ c && c ≤ '7') rest
  | '0' :: 'b' :: rest => based? 2 (fun c => c == '0' || c == '1') rest
  | _ => unsigned? false cs

/-! ## Moments -/

/-- Read a number of exactly so many digits within bounds, with its digits. -/
def fixed? (width low high : Nat) (cs : List Char) : Option (List Char × List Char) :=
  let ds := cs.take width
  if ds.length = width ∧ ds.all isDecimal ∧ low ≤ natOf 10 ds ∧ natOf 10 ds ≤ high then
    some (ds, cs.drop width)
  else none

def expect? (c : Char) (cs : List Char) : Option (List Char) :=
  match cs with
  | d :: rest => if c = d then some rest else none
  | [] => none

def isLeap (year : Nat) : Bool := year % 4 == 0 && (year % 100 != 0 || year % 400 == 0)

def daysIn (year month : Nat) : Nat :=
  if month = 2 then (if isLeap year then 29 else 28)
  else if month = 4 ∨ month = 6 ∨ month = 9 ∨ month = 11 then 30
  else 31

def date? (cs : List Char) : Option (List Char × List Char) := do
  let (year, cs) ← fixed? 4 0 9999 cs
  let cs ← expect? '-' cs
  let (month, cs) ← fixed? 2 1 12 cs
  let cs ← expect? '-' cs
  let (day, cs) ← fixed? 2 1 (daysIn (natOf 10 year) (natOf 10 month)) cs
  some (year ++ '-' :: month ++ '-' :: day, cs)

/-- A fraction of a second without trailing zeros, to at most nine places. -/
def secondFraction? (cs : List Char) : Option (List Char × List Char) :=
  match cs with
  | '.' :: rest =>
    match rest.span isDecimal with
    | ([], _) => none
    | (ds, rest) =>
      let kept := ((ds.take 9).reverse.dropWhile (· = '0')).reverse
      some (if kept = [] then [] else '.' :: kept, rest)
  | _ => some ([], cs)

def time? (cs : List Char) : Option (List Char × List Char) := do
  let (hour, cs) ← fixed? 2 0 23 cs
  let cs ← expect? ':' cs
  let (minute, cs) ← fixed? 2 0 59 cs
  let cs ← expect? ':' cs
  let (second, cs) ← fixed? 2 0 60 cs
  let (fraction, cs) ← secondFraction? cs
  some (hour ++ ':' :: minute ++ ':' :: second ++ fraction, cs)

/-- Read the distance from universal time, if one is given. -/
def zone? (cs : List Char) : Option (List Char × List Char) :=
  match cs with
  | 'Z' :: rest => some (['Z'], rest)
  | 'z' :: rest => some (['Z'], rest)
  | sign :: rest =>
    if sign = '+' ∨ sign = '-' then do
      let (hour, rest) ← fixed? 2 0 23 rest
      let rest ← expect? ':' rest
      let (minute, rest) ← fixed? 2 0 59 rest
      some (sign :: hour ++ ':' :: minute, rest)
    else some ([], cs)
  | [] => some ([], cs)

/-- Read a date with or without a time, or a time. -/
def moment? (cs : List Char) : Option (Value × List Char) :=
  let made (text rest : List Char) : Option (Value × List Char) :=
    some (.moment (String.ofList text), rest)
  match date? cs with
  | some (date, rest) =>
    match rest with
    | c :: after =>
      if c = 'T' ∨ c = 't' ∨ c = ' ' then
        match time? after with
        | some (time, after) =>
          match zone? after with
          | some (zone, after) => made (date ++ 'T' :: time ++ zone) after
          | none => none
        | none => made date rest
      else made date rest
    | [] => made date rest
  | none =>
    match time? cs with
    | some (time, rest) => made time rest
    | none => none

/-! ## Tables under construction -/

/-- A node of a document. A table is implicit if only paths through it were seen, and dotted if
these were keys with dots. -/
inductive Node where
  | value (v : Value)
  | table (implicit dotted : Bool) (members : List (String × Node))
  | tables (elements : List (List (String × Node)))

/-- The members of a table. -/
abbrev Members := List (String × Node)

def member? (name : String) : Members → Option Node
  | [] => none
  | (n, node) :: rest => if n = name then some node else member? name rest

def setMember (name : String) (node : Node) : Members → Members
  | [] => [(name, node)]
  | (n, old) :: rest =>
    if n = name then (name, node) :: rest else (n, old) :: setMember name node rest

/-- Change the table that a path leads to, creating tables on the way. By dotted keys only tables
are entered that no header or value defined. -/
def enter (dotted : Bool) (change : Bool → Members → Option Members) :
    List String → (isDotted : Bool) → Members → Option Members
  | [], isDotted, members => change isDotted members
  | name :: path, _, members =>
    match member? name members with
    | none =>
      (enter dotted change path dotted []).map fun inner =>
        setMember name (.table true dotted inner) members
    | some (.value _) => none
    | some (.tables elements) =>
      match elements.getLast? with
      | none => none
      | some last =>
        (enter dotted change path false last).map fun inner =>
          setMember name (.tables (elements.dropLast ++ [inner])) members
    | some (.table implicit isDotted inner) =>
      if dotted ∧ ¬implicit then none
      else
        (enter dotted change path isDotted inner).map fun inner =>
          setMember name (.table implicit isDotted inner) members

/-- Set a key to a value in a table. A key with dots must lead through tables made by such keys. -/
def setValue (path : List String) (v : Value) (isDotted : Bool) (members : Members) :
    Option Members :=
  match path.getLast? with
  | none => none
  | some name =>
    let parents := path.dropLast
    enter true
      (fun isDotted members =>
        if isDotted = parents.isEmpty then none
        else if (member? name members).isSome then none
        else some (setMember name (.value v) members))
      parents isDotted members

/-- Start the table of a header. -/
def startTable (path : List String) (members : Members) : Option Members :=
  match path.getLast? with
  | none => none
  | some name =>
    enter false
      (fun _ members =>
        match member? name members with
        | none => some (setMember name (.table false false []) members)
        | some (.table true false inner) => some (setMember name (.table false false inner) members)
        | some _ => none)
      path.dropLast false members

/-- Start one more table of an array of tables. -/
def startElement (path : List String) (members : Members) : Option Members :=
  match path.getLast? with
  | none => none
  | some name =>
    enter false
      (fun _ members =>
        match member? name members with
        | none => some (setMember name (.tables [[]]) members)
        | some (.tables elements) => some (setMember name (.tables (elements ++ [[]])) members)
        | some _ => none)
      path.dropLast false members

mutual

/-- The finished value of a node. -/
def Node.finish : Node → Value
  | .value v => v
  | .table _ _ members => .table (finishMembers members)
  | .tables elements => .array (finishElements elements)

def finishMembers : List (String × Node) → List (String × Value)
  | [] => []
  | (name, node) :: rest => (name, node.finish) :: finishMembers rest

def finishElements : List (List (String × Node)) → List Value
  | [] => []
  | members :: rest => .table (finishMembers members) :: finishElements rest

end

/-! ## Arrays and inline tables -/

/-- Read the elements of an array after its bracket or a comma. -/
def elements (value : Reader Value) : (bound : Nat) → List Value → Reader Value
  | 0, _, _ => none
  | bound + 1, read, cs =>
    match skipBlank cs with
    | ']' :: rest => some (.array read.reverse, rest)
    | cs =>
      match value cs with
      | none => none
      | some (v, rest) =>
        match skipBlank rest with
        | ',' :: rest => elements value bound (v :: read) rest
        | ']' :: rest => some (.array (v :: read).reverse, rest)
        | _ => none

/-- Read a key with its value. -/
def pair? (value : Reader Value) (cs : List Char) : Option ((List String × Value) × List Char) :=
  match key? cs with
  | some (path, '=' :: rest) =>
    (value (skipSpace rest)).map fun (v, rest) => ((path, v), rest)
  | _ => none

/-- Read the pairs of an inline table after its brace or a comma. -/
def inlinePairs (value : Reader Value) : (bound : Nat) → Members → Reader Members
  | 0, _, _ => none
  | bound + 1, members, cs =>
    match pair? value cs with
    | none => none
    | some ((path, v), rest) =>
      match setValue path v false members with
      | none => none
      | some members =>
        match skipSpace rest with
        | ',' :: rest => inlinePairs value bound members rest
        | '}' :: rest => some (members, rest)
        | _ => none

/-- Read a value, no deeper than a limit. -/
def value? : (depth : Nat) → Reader Value
  | 0, _ => none
  | depth + 1, cs =>
    match cs with
    | '"' :: _ => (string? cs).map fun (s, rest) => (.text s, rest)
    | '\'' :: _ => (string? cs).map fun (s, rest) => (.text s, rest)
    | '[' :: rest => elements (value? depth) (rest.length + 1) [] rest
    | '{' :: rest =>
      match skipSpace rest with
      | '}' :: rest => some (.table [], rest)
      | _ =>
        (inlinePairs (value? depth) (rest.length + 1) [] rest).map fun (members, rest) =>
          (.table (finishMembers members), rest)
    | 't' :: 'r' :: 'u' :: 'e' :: rest => some (.boolean true, rest)
    | 'f' :: 'a' :: 'l' :: 's' :: 'e' :: rest => some (.boolean false, rest)
    | _ => (moment? cs).or (number? cs)

/-! ## Documents -/

/-- Read the path of a header between its brackets. -/
def header? (cs : List Char) : Option (List String × List Char) :=
  match key? cs with
  | some (path, ']' :: rest) => some (path, rest)
  | _ => none

/-- Read lines into the table at a path. -/
def lines : (bound : Nat) → (current : List String) → Members → List Char → Option Members
  | 0, _, _, _ => none
  | bound + 1, current, members, cs =>
    match skipSpace cs with
    | [] => some members
    | '[' :: '[' :: rest =>
      match header? rest with
      | some (path, ']' :: rest) =>
        match startElement path members, endOfLine? rest with
        | some members, some rest => lines bound path members rest
        | _, _ => none
      | _ => none
    | '[' :: rest =>
      match header? rest with
      | some (path, rest) =>
        match startTable path members, endOfLine? rest with
        | some members, some rest => lines bound path members rest
        | _, _ => none
      | none => none
    | cs =>
      match endOfLine? cs with
      | some rest => lines bound current members rest
      | none =>
        match pair? (value? depthLimit) cs with
        | none => none
        | some ((path, v), rest) =>
          match enter false (setValue path v) current false members, endOfLine? rest with
          | some members, some rest => lines bound current members rest
          | _, _ => none

/-- Read a document. A byte order mark in front of it does not count. -/
def document? (text : String) : Option (List (String × Value)) :=
  let cs := match text.toList with
    | '\ufeff' :: rest => rest
    | cs => cs
  (lines (cs.length + 2) [] [] cs).map finishMembers

end KeyedLog.Toml
