import KeyedLog.FileTree.Steps

/-!
# The store in a database

Two tables in one file, or in memory only. A file is locked by the password it was created with.
-/
namespace KeyedLog

/-- An open database, the file it lies in and the password of that file. -/
structure Database where
  file : Option Path := none
  password : Option String := none
  tables : Tables := {}
  closed : Bool := false
  deriving DecidableEq, Repr

namespace Database

def defaultName : String := "kvlog.sqlite"

/-- Whether a location is to hold the database as a directory. -/
def namesDirectory (t : FileTree) (location : String) : Bool :=
  location.toList.getLast? == some '/' || t.isDirectory (Path.ofText location)

/-- The text of the directory above, if the location has one that is not the current one. -/
def above? (location : String) : Option String :=
  match Text.splitLast? '/' location.toList with
  | some (before, _) =>
    let trimmed := (before.reverse.dropWhile (· = '/')).reverse
    if trimmed = [] then none else some (String.ofList trimmed)
  | none => none

/-- The file of a location, and the directories that opening it creates. -/
def resolve (t : FileTree) (location : String) : Location × FileTree.Plan :=
  if namesDirectory t location then
    (⟨location, [defaultName]⟩, t.planDirectory ⟨location, []⟩)
  else
    match above? location with
    | some directory => (⟨location, []⟩, t.planDirectory ⟨directory, []⟩)
    | none => (⟨location, []⟩, {})

/-- What a file holds for somebody with a password. An empty file is a new database. -/
def unlock (password : Option String) : Content → Except StateError Tables
  | .bytes [] => .ok {}
  | .bytes _ => .error (.database .notDatabase)
  | .database lock tables =>
    if lock = password then .ok tables else .error (.database .notDatabase)

/-- Open a database in a file. An empty password is none, and an empty location no file. -/
def openAt (t : FileTree) (location : String) (password : Option String) :
    Except StateError Database × FileTree :=
  let password := password.filter (· ≠ "")
  if location = "" then (.ok { password := password }, t) else
  let (file, plan) := resolve t location
  match t.carryOut plan with
  | (.error e, t) => (.error e, t)
  | (.ok (), t) =>
    match t.place file.path with
    | .error _ => (.error (.database .cannotOpen), t)
    | .ok place =>
      match t.node? place with
      | some .directory => (.error (.database .cannotOpen), t)
      | some (.link _) => (.error (.database .cannotOpen), t)
      | some (.file content) =>
        match unlock password content with
        | .error e => (.error e, t)
        | .ok tables =>
          (.ok { file := some place, password := password, tables := tables },
            Assoc.put place (.file (.database password tables)) t)
      | none =>
        (.ok { file := some place, password := password },
          Assoc.put place (.file (.database password {})) t)

/-- Change the tables of an open database, and its file with them. -/
def change (d : Database) (t : FileTree) (f : Tables → Tables) :
    Except StateError Unit × Database × FileTree :=
  if d.closed then (.error (.database .closed), d, t)
  else
    let tables := f d.tables
    let t := match d.file with
      | none => t
      | some place =>
        match t.node? place with
        | some (.file (.database lock _)) => Assoc.put place (.file (.database lock tables)) t
        | _ => t
    (.ok (), { d with tables := tables }, t)

/-- Ask an open database. -/
def ask {α : Type} (d : Database) (f : Tables → α) : Except StateError α :=
  if d.closed then .error (.database .closed) else .ok (f d.tables)

def close (d : Database) : Database := { d with closed := true }

end Database

end KeyedLog
