import KeyedLog.Latch
import KeyedLog.Store.Database
import KeyedLog.Store.Dict
import KeyedLog.Store.Disk

/-!
# State stores

A store keeps the live value of each key and a ledger of consumed offsets, in one of three forms,
together with a readiness latch that lives as long as the store is open.
-/
namespace KeyedLog

inductive Backend where
  | dict
  | disk
  | sqlite
  deriving DecidableEq, Repr

/-- The forms a state is kept in. -/
inductive Backing where
  | dict (entries : Dict)
  | disk (root : Location)
  | database (database : Database)
  deriving DecidableEq, Repr

structure StateStore where
  backing : Backing
  latch : Latch := {}
  deriving DecidableEq, Repr

namespace StateStore

def backend (s : StateStore) : Backend :=
  match s.backing with
  | .dict _ => .dict
  | .disk _ => .disk
  | .database _ => .sqlite

def openDict : StateStore := { backing := .dict {} }

def openDisk (files : FileTree) (root : String) : Except StateError StateStore × FileTree :=
  let (result, files) := files.carryOut (Disk.planOpen files ⟨root, []⟩)
  (result.map fun () => { backing := .disk ⟨root, []⟩ }, files)

def openDatabase (files : FileTree) (location : Option String) (password : Option String) :
    Except StateError StateStore × FileTree :=
  match location with
  | none => (.ok { backing := .database {} }, files)
  | some location =>
    let (result, files) := Database.openAt files location password
    (result.map fun database => { backing := .database database }, files)

/-- Open a store of a given form. Without a location, a tree lies in the current directory and a
database in memory. -/
def openStore (files : FileTree) (backend : Backend) (location password : Option String) :
    Except StateError StateStore × FileTree :=
  match backend with
  | .dict => (.ok openDict, files)
  | .disk => openDisk files (location.getD ".")
  | .sqlite => openDatabase files location password

/-- Store a value for a key. -/
def put (s : StateStore) (files : FileTree) (key value : Bytes) (correlation : String) :
    Except StateError Unit × StateStore × FileTree :=
  match s.backing with
  | .dict d => (.ok (), { s with backing := .dict (d.put ⟨key, value, correlation⟩) }, files)
  | .disk root =>
    let (result, files) := files.carryOut (Disk.planPut files root key value correlation)
    (result, s, files)
  | .database d =>
    let (result, d, files) := d.change files (·.put key ⟨value, correlation⟩)
    (result, { s with backing := .database d }, files)

def get? (s : StateStore) (files : FileTree) (key : Bytes) :
    Except StateError (Option StoredValue) :=
  match s.backing with
  | .dict d => .ok (d.get? key)
  | .disk root => Disk.retrieve files root key
  | .database d => d.ask (·.get? key)

def remove (s : StateStore) (files : FileTree) (key : Bytes) :
    Except StateError Unit × StateStore × FileTree :=
  match s.backing with
  | .dict d => (.ok (), { s with backing := .dict (d.remove key) }, files)
  | .disk root =>
    let (result, files) := files.carryOut (Disk.planRemove files root key)
    (result, s, files)
  | .database d =>
    let (result, d, files) := d.change files (·.remove key)
    (result, { s with backing := .database d }, files)

/-- The consumed offsets, by topic and partition. -/
def ledger (s : StateStore) (files : FileTree) : Except StateError (List Position) :=
  match s.backing with
  | .dict d => .ok d.ledger
  | .disk root => Disk.ledger files root
  | .database d => d.ask (·.ledger)

/-- Enter a consumed offset in the ledger. -/
def advance (s : StateStore) (files : FileTree) (p : Position) :
    Except StateError Unit × StateStore × FileTree :=
  match s.backing with
  | .dict d => (.ok (), { s with backing := .dict (d.advance p) }, files)
  | .disk root =>
    let (result, files) := files.carryOut (Disk.planAdvance files root p)
    (result, s, files)
  | .database d =>
    let (result, d, files) := d.change files (·.advance p)
    (result, { s with backing := .database d }, files)

/-- Apply a decoded record. -/
def applyChange (s : StateStore) (files : FileTree) (key : Bytes) (value : Option Bytes)
    (correlation : String) : Except StateError Unit × StateStore × FileTree :=
  match value with
  | some value => s.put files key value correlation
  | none => s.remove files key

/-- Whether the ledger has reached the watermark, now or ever before. -/
def ready (s : StateStore) (files : FileTree) : Except StateError Bool × StateStore :=
  if s.latch.latched then (.ok true, s)
  else
    match s.ledger files with
    | .error e => (.error e, s)
    | .ok rows =>
      let (answer, latch) := s.latch.evaluate rows
      (.ok answer, { s with latch := latch })

def progress (s : StateStore) (files : FileTree) : Except StateError (List Progress) :=
  (s.ledger files).map s.latch.progress

/-- Close the database of a store; other stores have nothing to close. -/
def close (s : StateStore) : StateStore :=
  match s.backing with
  | .database d => { s with backing := .database d.close }
  | _ => s

end StateStore

end KeyedLog
