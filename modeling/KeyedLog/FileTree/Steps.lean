import KeyedLog.FileTree
import KeyedLog.Store.Error

/-!
# Steps on a file tree

Changes of a file tree that happen as a whole or not at all. An operation plans its steps first
and then performs them up to the first that fails; one that is cut off has performed a prefix.
-/
namespace KeyedLog

/-- A place as it is named in messages: the text it was configured as, and names below it. -/
structure Location where
  base : String
  below : List String := []
  deriving DecidableEq, Repr

namespace Location

def join (l : Location) (name : String) : Location := { l with below := l.below ++ [name] }

/-- Names joined by slashes onto a text, without a slash after none. -/
def joinText (base : String) : List String → String
  | [] => base
  | name :: rest =>
    joinText (if base = "" ∨ base.toList.getLast? = some '/' then base ++ name
      else base ++ "/" ++ name) rest

def text (l : Location) : String := joinText l.base l.below

def path (l : Location) : Path := Path.ofText l.base ++ l.below

end Location

namespace FileTree

inductive Step where
  | makeDirectory (location : Location)
  | write (location : Location) (data : Bytes)
  /-- Remove a file; it is fine if there is none. -/
  | remove (location : Location)
  /-- Remove a directory if it is empty; it is fine if it cannot be removed. -/
  | prune (location : Location)
  deriving DecidableEq, Repr

def Step.target : Step → Location
  | makeDirectory l => l
  | write l _ => l
  | remove l => l
  | prune l => l

def apply (t : FileTree) : Step → Except FileError FileTree
  | .makeDirectory l => t.makeDirectory l.path
  | .write l data => t.write l.path data
  | .remove l =>
    match t.removeFile l.path with
    | .error .notFound => .ok t
    | result => result
  | .prune l =>
    match t.removeDirectory l.path with
    | .ok t => .ok t
    | .error _ => .ok t

/-- Perform steps until one fails, and tell which failure that was. -/
def perform (t : FileTree) : List Step → Option StateError × FileTree
  | [] => (none, t)
  | step :: rest =>
    match t.apply step with
    | .error e => (some (.io step.target.text e), t)
    | .ok t => t.perform rest

/-- Steps, and the failure that comes after them. -/
structure Plan where
  steps : List Step := []
  failure : Option StateError := none
  deriving DecidableEq, Repr

/-- Carry a plan out. -/
def carryOut (t : FileTree) (p : Plan) : Except StateError Unit × FileTree :=
  match t.perform p.steps with
  | (some e, t) => (.error e, t)
  | (none, t) =>
    match p.failure with
    | some e => (.error e, t)
    | none => (.ok (), t)

/-- The directories to create along the names that are left, and what is in the way of them. -/
def missingFrom (t : FileTree) (done : Path) : Path → List Path × Option FileError
  | [] => ([], none)
  | name :: rest =>
    let here := done ++ [name]
    match t.lookup here with
    | .ok .directory => missingFrom t here rest
    | .ok _ => ([], some (if rest = [] then .alreadyExists else .notDirectory))
    | .error .notFound =>
      match t.entryPlace here with
      | .ok place =>
        if (t.node? place).isSome then ([], some .alreadyExists)
        else (here :: (List.range rest.length).map (fun n => here ++ rest.take (n + 1)), none)
      | .error e => ([], some e)
    | .error e => ([], some e)

/-- Create a directory with all directories above it that are missing. -/
def planDirectory (t : FileTree) (l : Location) : Plan :=
  let (missing, failure) := t.missingFrom [] l.path
  { steps := missing.map fun p => .makeDirectory ⟨"", p⟩
    failure := failure.map (.io l.text) }

end FileTree

end KeyedLog
