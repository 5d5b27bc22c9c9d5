import KeyedLog.Config.Environment
import KeyedLog.Toml.Value

/-!
# Configuration files

A configuration as a document of TOML. What it leaves out keeps its default, what it names beside
is passed over, and what is of the wrong type is refused.
-/
namespace KeyedLog

namespace Toml

/-- The name under which the text of a moment is seen where a table is wanted. -/
def momentName : String := "$__toml_private_datetime"

/-- The members of a record: those of a table by name, or those of an array in order. -/
def record? : Value → Option (Nat → String → Option Value)
  | .table members => some fun _ name => members.lookup name
  | .array elements => some fun n _ => elements[n]?
  | .moment _ => some fun _ _ => none
  | _ => none

def text? : Value → Option String
  | .text s => some s
  | _ => none

def boolean? : Value → Option Bool
  | .boolean b => some b
  | _ => none

/-- A number of milliseconds. -/
def natural? : Value → Option Nat
  | .integer n => if 0 ≤ n then some n.toNat else none
  | _ => none

/-- A name out of a fixed set, as text or as the only key of a table without contents. -/
def choice? {α : Type} (ofName? : String → Option α) : Value → Option α
  | .text s => ofName? s
  | .table [(name, .table [])] => ofName? name
  | .table [(name, .array [])] => ofName? name
  | _ => none

/-- Named texts. -/
def texts? : Value → Option (List (String × String))
  | .table members => members.mapM fun (name, v) => (text? v).map fun s => (name, s)
  | .moment s => some [(momentName, s)]
  | _ => none

/-- Read a member that may be left out. -/
def orElse {α : Type} (default : α) (read : Value → Option α) : Option Value → Option α
  | none => some default
  | some v => read v

end Toml

namespace Config

open Toml (record? text? boolean? natural? choice? texts? orElse)

def readStorage (v : Toml.Value) : Option StorageConfig := do
  let member ← record? v
  let backend ← orElse .sqlite (choice? Backend.ofName?) (member 0 "backend")
  let location ← orElse none (fun v => (text? v).map some) (member 1 "location")
  let password ← orElse none (fun v => (text? v).map some) (member 2 "sqlite_password")
  some ⟨backend, location, password⟩

def readEncryption (v : Toml.Value) : Option EncryptionConfig := do
  let member ← record? v
  let enabled ← orElse false boolean? (member 0 "enabled")
  let key ← orElse none (fun v => (text? v).map some) (member 1 "key_hex")
  let keyFile ← orElse none (fun v => (text? v).map some) (member 2 "key_file")
  some ⟨enabled, key, keyFile⟩

def readBroker (v : Toml.Value) : Option BrokerConfig := do
  let member ← record? v
  let kind ← orElse none (fun v => (choice? BrokerKind.ofName? v).map some) (member 0 "kind")
  let properties ← orElse [] texts? (member 1 "properties")
  some ⟨kind, .ofList properties⟩

def readRegistry (v : Toml.Value) : Option RegistryConfig := do
  let member ← record? v
  let url ← orElse none (fun v => (text? v).map some) (member 0 "url")
  let timeout ← orElse 5000 natural? (member 1 "request_timeout_ms")
  some ⟨url, timeout⟩

def readTiming (v : Toml.Value) : Option Replay.Timing := do
  let member ← record? v
  let d : Replay.Timing := {}
  let poll ← orElse d.poll natural? (member 0 "poll_timeout_ms")
  let backoff ← orElse d.backoff natural? (member 1 "tail_backoff_ms")
  let watermark ← orElse d.watermark natural? (member 2 "watermark_timeout_ms")
  some ⟨poll, backoff, watermark⟩

def readFlushTimeout (v : Toml.Value) : Option Nat := do
  let member ← record? v
  orElse 10000 natural? (member 0 "flush_timeout_ms")

def readListen (v : Toml.Value) : Option SocketAddress := (text? v).bind SocketAddress.ofText?

/-- The configuration that a document stands for. -/
def ofValue? (v : Toml.Value) : Option Config := do
  let member ← record? v
  let d : Config := {}
  let topic ← orElse d.topic text? (member 0 "topic")
  let listen ← orElse d.listen readListen (member 1 "listen")
  let reads ← orElse d.reads boolean? (member 2 "read_enabled")
  let writes ← orElse d.writes boolean? (member 3 "write_enabled")
  let storage ← orElse d.storage readStorage (member 4 "storage")
  let encryption ← orElse d.encryption readEncryption (member 5 "encryption")
  let broker ← orElse d.broker readBroker (member 6 "broker")
  let registry ← orElse d.registry readRegistry (member 7 "schema_registry")
  let timing ← orElse d.timing readTiming (member 8 "consumer")
  let flushTimeout ← orElse d.flushTimeout readFlushTimeout (member 9 "producer")
  some
    ⟨topic, listen, reads, writes, storage, encryption, broker, registry, timing, flushTimeout⟩

/-- Read a configuration from its text. -/
def ofText (text : String) : Except ConfigError Config :=
  match (Toml.document? text).bind fun members => ofValue? (.table members) with
  | some c => .ok c
  | none => .error .parse

/-- Read a configuration from a file. -/
def ofFile (files : FileTree) (path : String) : Except ConfigError Config :=
  match files.readText path with
  | .error e => .error (.read path e)
  | .ok text => ofText text

/-- The variables with each name kept once, in its first place and with its last value. -/
def distinct (vars : List (String × String)) : List (String × String) :=
  vars.foldl (fun found (name, value) => Assoc.put name value found) []

/-- Read a configuration from a file, if one is named, apply the environment, and check it. -/
def load (files : FileTree) (path : Option String) (vars : List (String × String)) :
    Except ConfigError Config :=
  match (path.map (ofFile files)).getD (.ok {}) with
  | .error e => .error e
  | .ok c =>
    match c.applyEnvironment (distinct vars) with
    | .error e => .error e
    | .ok c => (c.validate files).map fun () => c

end Config

end KeyedLog
