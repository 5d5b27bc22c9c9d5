import KeyedLog.FileTree.Steps

/-!
# Planting and listing file trees

A tree is planted file by file, with the directories that are missing, and listed with everything
that can be reached in it.
-/
namespace KeyedLog.FileTree

/-- Create a directory with those above it, as far as nothing is in the way. -/
def plantDirectory (t : FileTree) (path : String) : FileTree :=
  (t.carryOut (t.planDirectory ⟨path, []⟩)).2

/-- The text of the directory a path text lies in. -/
def directoryOf (path : String) : String :=
  match Text.splitLast? '/' path.toList with
  | some (before, _) => String.ofList before
  | none => ""

/-- Write a file, with the directories it needs. -/
def plant (t : FileTree) (path : String) (data : Bytes) : Except FileError FileTree :=
  (t.plantDirectory (directoryOf path)).write (Path.ofText path) data

/-- Make a link, with the directories it needs. -/
def plantLink (t : FileTree) (path target : String) : Except FileError FileTree :=
  (t.plantDirectory (directoryOf path)).makeLink (Path.ofText path) target

/-- Everything below a directory down to a depth: directories with a slash after their names, and
files with what they are read as. Links count as what they lead to. -/
def entriesBelow (t : FileTree) : (depth : Nat) → Path → List (String × Option Bytes)
  | 0, _ => []
  | depth + 1, here =>
    match t.list here with
    | .error _ => []
    | .ok names =>
      names.flatMap fun name =>
        let there := here ++ [name]
        let text := String.intercalate "/" there
        if t.isDirectory there then (text ++ "/", none) :: entriesBelow t depth there
        else
          match t.read there with
          | .ok data => [(text, some data)]
          | .error _ => [(text, some [])]

/-- Everything in a tree, in the order of the bytes of the names. -/
def entries (t : FileTree) : List (String × Option Bytes) :=
  (t.entriesBelow (t.length + 1) []).mergeSort fun a b => a.1 ≤ b.1

end KeyedLog.FileTree
