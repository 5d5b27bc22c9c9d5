import KeyedLog.Text.Hex

/-!
# Tokens of TOML

The pieces that lines of TOML are made of: blanks, comments, strings, keys, and dates. Every
reader takes the characters that are left, and fails or answers with what remains of them.
-/
namespace KeyedLog.Toml

abbrev Reader (α : Type) := List Char → Option (α × List Char)

def isSpace (c : Char) : Bool := c == ' ' || c == '\t'

def skipSpace (cs : List Char) : List Char := cs.dropWhile isSpace

/-- Characters that may stand anywhere in a line: all but controls, with the tab. -/
def isLineChar (c : Char) : Bool := c == '\t' || (0x20 ≤ c.toNat && c.toNat ≠ 0x7F)

/-- Read the end of a line, if there is one. -/
def newline? : List Char → Option (List Char)
  | '\n' :: rest => some rest
  | '\r' :: '\n' :: rest => some rest
  | _ => none

/-- Pass over a comment, if there is one. -/
def skipComment : List Char → List Char
  | '#' :: rest => rest.dropWhile isLineChar
  | cs => cs

/-- Pass over the blank end of a line, which may be the end of the text. -/
def endOfLine? (cs : List Char) : Option (List Char) :=
  match skipComment (skipSpace cs) with
  | [] => some []
  | rest => newline? rest

/-- Pass over blanks, comments and ends of lines. -/
def skipLines : (bound : Nat) → List Char → List Char
  | 0, cs => cs
  | bound + 1, cs =>
    match skipSpace cs with
    | '#' :: rest =>
      match newline? (rest.dropWhile isLineChar) with
      | some rest => skipLines bound rest
      | none => '#' :: rest
    | cs =>
      match newline? cs with
      | some rest => skipLines bound rest
      | none => cs

/-- Pass over blanks, comments and ends of lines, of which there are fewer than characters. -/
def skipBlank (cs : List Char) : List Char := skipLines (cs.length + 1) cs

/-- The character of a code point, unless it is a surrogate or there is none. -/
def scalar? (digits : List Char) : Option Char :=
  match digits.mapM Hex.nibble? with
  | none => none
  | some ds =>
    let n := ds.foldl (fun n d => 16 * n + d.toNat) 0
    if n < 0xD800 ∨ 0xDFFF < n ∧ n < 0x110000 then some (Char.ofNat n) else none

/-- Read an escape after its backslash. -/
def escape? : Reader Char
  | 'b' :: rest => some ('\x08', rest)
  | 't' :: rest => some ('\t', rest)
  | 'n' :: rest => some ('\n', rest)
  | 'f' :: rest => some ('\x0c', rest)
  | 'r' :: rest => some ('\r', rest)
  | '"' :: rest => some ('"', rest)
  | '\\' :: rest => some ('\\', rest)
  | 'u' :: rest =>
    if rest.length < 4 then none else (scalar? (rest.take 4)).map fun c => (c, rest.drop 4)
  | 'U' :: rest =>
    if rest.length < 8 then none else (scalar? (rest.take 8)).map fun c => (c, rest.drop 8)
  | _ => none

/-- Read the rest of a string in one line after its quote. What was read is held backwards. -/
def basicOnto : (bound : Nat) → List Char → Reader (List Char)
  | 0, _, _ => none
  | _, _, [] => none
  | bound + 1, read, c :: rest =>
    if c = '"' then some (read.reverse, rest)
    else if c = '\\' then
      match escape? rest with
      | some (e, rest) => basicOnto bound (e :: read) rest
      | none => none
    else if isLineChar c then basicOnto bound (c :: read) rest
    else none

/-- Read the rest of a literal string in one line. -/
def literal? (cs : List Char) : Option (List Char × List Char) :=
  match cs.span fun c => c ≠ '\'' && isLineChar c with
  | (text, '\'' :: rest) => some (text, rest)
  | _ => none

/-- Whether a backslash ends a line: only blanks are left on it. -/
def continues? (cs : List Char) : Option (List Char) :=
  (newline? (skipSpace cs)).map fun rest =>
    rest.dropWhile fun c => isSpace c || c == '\n' || c == '\r'

/-- Read the rest of a string of several lines. Up to two quotes may come before the three that
close it. -/
def linesOnto (quote : Char) (escapes : Bool) : (bound : Nat) → List Char → Reader (List Char)
  | 0, _, _ => none
  | _, _, [] => none
  | bound + 1, read, c :: rest =>
    if c = quote then
      let (quotes, after) := (c :: rest).span (· = quote)
      if quotes.length < 3 then linesOnto quote escapes bound (quotes ++ read) after
      else
        let kept := min (quotes.length - 3) 2
        some ((List.replicate kept quote ++ read).reverse,
          List.replicate (quotes.length - 3 - kept) quote ++ after)
    else if c = '\\' ∧ escapes then
      match continues? rest with
      | some rest => linesOnto quote escapes bound read rest
      | none =>
        match escape? rest with
        | some (e, rest) => linesOnto quote escapes bound (e :: read) rest
        | none => none
    else
      match newline? (c :: rest) with
      | some rest => linesOnto quote escapes bound ('\n' :: read) rest
      | none => if isLineChar c then linesOnto quote escapes bound (c :: read) rest else none

/-- A line that ends right after the opening quotes does not count. -/
def skipFirstLine (cs : List Char) : List Char := (newline? cs).getD cs

/-- Read a string of any kind. -/
def string? (cs : List Char) : Option (String × List Char) :=
  let bound := cs.length + 1
  let made := Option.map fun ((text, rest) : List Char × List Char) => (String.ofList text, rest)
  match cs with
  | '"' :: '"' :: '"' :: rest => made (linesOnto '"' true bound [] (skipFirstLine rest))
  | '\'' :: '\'' :: '\'' :: rest => made (linesOnto '\'' false bound [] (skipFirstLine rest))
  | '"' :: rest => made (basicOnto bound [] rest)
  | '\'' :: rest => made (literal? rest)
  | _ => none

def isBare (c : Char) : Bool := c.isAlphanum || c == '_' || c == '-'

/-- Read one part of a key. -/
def simpleKey? (cs : List Char) : Option (String × List Char) :=
  match cs with
  | '"' :: rest =>
    (basicOnto (cs.length + 1) [] rest).map fun (text, rest) => (String.ofList text, rest)
  | '\'' :: rest => (literal? rest).map fun (text, rest) => (String.ofList text, rest)
  | _ =>
    match cs.span isBare with
    | ([], _) => none
    | (text, rest) => some (String.ofList text, rest)

/-- Read a key of several parts between dots, with the blanks around it. -/
def keyParts : (bound : Nat) → Reader (List String)
  | 0, _ => none
  | bound + 1, cs =>
    match simpleKey? (skipSpace cs) with
    | none => none
    | some (part, rest) =>
      match skipSpace rest with
      | '.' :: rest => (keyParts bound rest).map fun (parts, rest) => (part :: parts, rest)
      | rest => some ([part], rest)

/-- How deep values and keys may go. -/
def depthLimit : Nat := 80

def key? : Reader (List String) := keyParts (depthLimit - 1)

end KeyedLog.Toml
