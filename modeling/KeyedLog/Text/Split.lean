/-!
# Splitting text

Text cut at a separator, and file names cut at their last dot.
-/
namespace KeyedLog.Text

/-- The pieces between separators; there is one more than there are separators. -/
def pieces (separator : Char) : List Char → List (List Char)
  | [] => [[]]
  | c :: rest =>
    if c = separator then [] :: pieces separator rest
    else
      match pieces separator rest with
      | [] => [[c]]
      | piece :: more => (c :: piece) :: more

def split (separator : Char) (text : String) : List String :=
  (pieces separator text.toList).map String.ofList

/-- The text before and after the last separator, if there is one. -/
def splitLast? (separator : Char) (cs : List Char) : Option (List Char × List Char) :=
  let (after, before) := cs.reverse.span (· ≠ separator)
  match before with
  | [] => none
  | _ :: before => some (before.reverse, after.reverse)

/-- The text before and after the first separator, if there is one. -/
def splitFirst? (separator : Char) (cs : List Char) : Option (List Char × List Char) :=
  match cs.span (· ≠ separator) with
  | (_, []) => none
  | (before, _ :: after) => some (before, after)

/-- A file name as its stem and, after the last dot, its extension. A dot at the very front
starts no extension. -/
def stemAndExtension (name : String) : String × Option String :=
  match splitLast? '.' name.toList with
  | some (c :: before, after) => (String.ofList (c :: before), some (String.ofList after))
  | _ => (name, none)

end KeyedLog.Text
