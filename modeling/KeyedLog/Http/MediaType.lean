import KeyedLog.Text.Split

/-!
# Media types

The value of a content type: a type and a subtype, which may have a suffix after a plus, and
parameters.
-/
namespace KeyedLog.Http

/-- The characters of tokens other than letters and digits. -/
def tokenMarks : List Char :=
  ['!', '#', '$', '%', '&', '\'', '*', '+', '-', '.', '^', '_', '\x60', '|', '~']

/-- The characters of tokens. -/
def isToken (c : Char) : Bool := c.isAlphanum || tokenMarks.contains c

structure MediaType where
  type : String
  subtype : String
  suffix : Option String
  deriving DecidableEq, Repr

namespace MediaType

/-- A place in the text of parameters: names and values, the values as tokens or in quotes. -/
inductive Place where
  /-- Before a parameter, where spaces are skipped. -/
  | start
  | name
  | valueStart
  | value
  /-- Within quotes, and whether anything stands in them. -/
  | quoted (filled : Bool)
  | afterQuote
  deriving DecidableEq, Repr

def isQuotable (c : Char) : Bool := 31 < c.toNat && c.toNat ≠ 127

/-- Whether the text from a place on completes sound parameters. -/
def parameters : Place → List Char → Bool
  | .start, [] => true
  | .name, [] => false
  | .valueStart, [] => true
  | .value, [] => true
  | .quoted _, [] => false
  | .afterQuote, [] => true
  | .start, c :: rest =>
    if c = ' ' then parameters .start rest else isToken c && parameters .name rest
  | .name, c :: rest =>
    if c = '=' then parameters .valueStart rest else isToken c && parameters .name rest
  | .valueStart, c :: rest =>
    if c = '"' then parameters (.quoted false) rest else isToken c && parameters .value rest
  | .value, c :: rest =>
    if c = ';' then parameters .start rest else isToken c && parameters .value rest
  | .quoted filled, c :: rest =>
    if c = '"' ∧ filled then parameters .afterQuote rest
    else isQuotable c && parameters (.quoted true) rest
  | .afterQuote, c :: rest =>
    if c = ';' then parameters .start rest else c = ' ' && parameters .afterQuote rest

/-- Read a media type. Letters count in lower case. -/
def ofText? (text : String) : Option MediaType :=
  let (type, rest) := (text.toList.map Char.toLower).span isToken
  match type, rest with
  | _ :: _, '/' :: rest =>
    let (name, rest) := rest.span isToken
    let sound := match rest with
      | [] => true
      | ';' :: rest => !name.isEmpty && parameters .start rest
      | _ => false
    if sound then
      match Text.splitLast? '+' name with
      | some (c :: before, after) =>
        some ⟨String.ofList type, String.ofList (c :: before), some (String.ofList after)⟩
      | _ => some ⟨String.ofList type, String.ofList name, none⟩
    else none
  | _, _ => none

/-- Whether the content is JSON, of whatever more special kind. -/
def isJson (m : MediaType) : Bool :=
  m.type == "application" && (m.subtype == "json" || m.suffix == some "json")

end MediaType

end KeyedLog.Http
