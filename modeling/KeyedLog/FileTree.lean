import KeyedLog.FileError
import KeyedLog.Tables
import KeyedLog.Text.Split
import KeyedLog.Text.Utf8

/-!
# File trees

The files below one directory, with symbolic links. A path is the list of names that lead to a
place. The list of all nodes is in the order in which a directory lists its entries.
-/
namespace KeyedLog

abbrev Path := List String

/-- What a file holds: plain bytes, or a database with the password that unlocks it. -/
inductive Content where
  | bytes (data : Bytes)
  | database (password : Option String) (tables : Tables)
  deriving DecidableEq, Repr

inductive Node where
  | directory
  | file (content : Content)
  | link (target : String)
  deriving DecidableEq, Repr

abbrev FileTree := List (Path × Node)

/-- The names a path text consists of. -/
def Path.ofText (text : String) : Path :=
  (Text.split '/' text).filter fun name => name ≠ "" && name ≠ "."

/-- Whether a path text ends in a slash, or in a dot in place of a name. -/
def Path.endsOpen (text : String) : Bool :=
  let last := (Text.split '/' text).getLast?
  last = some "" || last = some "."

/-- The bytes every database that is not locked begins with. -/
def Content.databaseMark : Bytes := Utf8.encode "SQLite format 3\x00"

/-- The bytes a file is read as. -/
def Content.image : Content → Bytes
  | .bytes data => data
  | .database none _ => databaseMark
  | .database (some _) _ => []

namespace FileTree

/-- The node at a place. The directory all paths start from is always there. -/
def node? (t : FileTree) (p : Path) : Option Node :=
  if p = [] then some .directory else Assoc.get? p t

/-- How many links one path may lead through. -/
def linkLimit : Nat := 40

/-- Follow names from a directory, replacing links by what they lead to. The place found may be
vacant, but its directory exists. Without `followLast` a link in last position is itself the
place. -/
def walk (t : FileTree) (followLast : Bool) (links : Nat) (here : Path) :
    Path → Except FileError Path
  | [] => .ok here
  | name :: rest =>
    if name = ".." then walk t followLast links here.dropLast rest
    else
      let there := here ++ [name]
      match t.node? there with
      | none => if rest = [] then .ok there else .error .notFound
      | some .directory => walk t followLast links there rest
      | some (.file _) => if rest = [] then .ok there else .error .notDirectory
      | some (.link target) =>
        if rest = [] ∧ ¬followLast then .ok there
        else
          match links with
          | 0 => .error .tooManyLinks
          | links + 1 => walk t followLast links here (Path.ofText target ++ rest)
  termination_by p => (links, p.length)

/-- The place a path leads to. -/
def place (t : FileTree) (p : Path) : Except FileError Path := t.walk true linkLimit [] p

/-- The place of the entry a path names, which may be a link. -/
def entryPlace (t : FileTree) (p : Path) : Except FileError Path := t.walk false linkLimit [] p

/-- The node a path leads to. -/
def lookup (t : FileTree) (p : Path) : Except FileError Node :=
  match t.place p with
  | .error e => .error e
  | .ok q =>
    match t.node? q with
    | some node => .ok node
    | none => .error .notFound

def isDirectory (t : FileTree) (p : Path) : Bool :=
  match t.lookup p with
  | .ok .directory => true
  | _ => false

def exists? (t : FileTree) (p : Path) : Bool :=
  match t.lookup p with
  | .ok _ => true
  | .error _ => false

def read (t : FileTree) (p : Path) : Except FileError Bytes :=
  match t.lookup p with
  | .ok (.file content) => .ok content.image
  | .ok _ => .error .isDirectory
  | .error e => .error e

/-- The text of the file that a path text names: the empty text names nothing, and one whose last
name is left out names a directory at most. -/
def readText (t : FileTree) (text : String) : Except FileError String :=
  if text = "" then .error .notFound
  else
    match t.read (Path.ofText text) with
    | .error e => .error e
    | .ok data =>
      if Path.endsOpen text then .error .notDirectory
      else
        match Utf8.decode? data with
        | some content => .ok content
        | none => .error .notText

/-- The name an entry has in a directory, if it lies directly in it. -/
def nameIn? (directory entry : Path) : Option String :=
  if entry.dropLast = directory then entry.getLast? else none

/-- The names in the directory at a place. -/
def namesAt (t : FileTree) (place : Path) : List String :=
  t.filterMap fun (entry, _) => nameIn? place entry

def list (t : FileTree) (p : Path) : Except FileError (List String) :=
  match t.place p with
  | .error e => .error e
  | .ok q =>
    match t.node? q with
    | some .directory => .ok (t.namesAt q)
    | some _ => .error .notDirectory
    | none => .error .notFound

/-- Whether a path leads to a directory without entries. -/
def isEmptyDirectory (t : FileTree) (p : Path) : Bool :=
  match t.list p with
  | .ok [] => true
  | _ => false

/-- Write a whole file, in place of what it held. -/
def writeContent (t : FileTree) (p : Path) (content : Content) : Except FileError FileTree :=
  match t.place p with
  | .error e => .error e
  | .ok q =>
    if t.node? q = some .directory then .error .isDirectory
    else .ok (Assoc.put q (.file content) t)

def write (t : FileTree) (p : Path) (data : Bytes) : Except FileError FileTree :=
  t.writeContent p (.bytes data)

/-- Create one directory; it is fine if there is one already. -/
def makeDirectory (t : FileTree) (p : Path) : Except FileError FileTree :=
  if t.isDirectory p then .ok t
  else
    match t.entryPlace p with
    | .error e => .error e
    | .ok q =>
      match t.node? q with
      | some _ => .error .alreadyExists
      | none => .ok (Assoc.put q .directory t)

def makeLink (t : FileTree) (p : Path) (target : String) : Except FileError FileTree :=
  match t.entryPlace p with
  | .error e => .error e
  | .ok q =>
    match t.node? q with
    | some _ => .error .alreadyExists
    | none => .ok (Assoc.put q (.link target) t)

/-- Remove a file or a link. -/
def removeFile (t : FileTree) (p : Path) : Except FileError FileTree :=
  match t.entryPlace p with
  | .error e => .error e
  | .ok q =>
    match t.node? q with
    | none => .error .notFound
    | some .directory => .error .isDirectory
    | some _ => .ok (Assoc.erase q t)

/-- Remove a directory without entries. -/
def removeDirectory (t : FileTree) (p : Path) : Except FileError FileTree :=
  match t.entryPlace p with
  | .error e => .error e
  | .ok q =>
    match t.node? q with
    | none => .error .notFound
    | some .directory => if t.namesAt q = [] then .ok (Assoc.erase q t) else .error .notEmpty
    | some _ => .error .notDirectory

/-- Remove whatever a path names, with everything below it. -/
def removeAll (t : FileTree) (p : Path) : FileTree :=
  match t.entryPlace p with
  | .error _ => t
  | .ok q => t.filter fun (entry, _) => !q.isPrefixOf entry

end FileTree

end KeyedLog
