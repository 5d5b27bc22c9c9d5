import KeyedLog.Config.Choice
import KeyedLog.Config.Properties
import KeyedLog.Envelope
import KeyedLog.FileTree
import KeyedLog.Replay.Basic
import KeyedLog.SocketAddress

/-!
# The configuration

Everything that can be set, with the values of what is left out, and the conditions under which
the service may start.
-/
namespace KeyedLog

namespace Setting

def topic : String := "KV_API_KAFKA_KEY_VALUE_TOPIC"
def key : String := "KV_API_AES_KEY"

end Setting

structure StorageConfig where
  backend : Backend := .sqlite
  location : Option String := none
  password : Option String := none
  deriving DecidableEq, Repr

structure EncryptionConfig where
  enabled : Bool := false
  key : Option String := none
  /-- The file that holds the key; it counts where no key is given. -/
  keyFile : Option String := none
  deriving DecidableEq, Repr

structure BrokerConfig where
  kind : Option BrokerKind := none
  /-- What a client of the brokers is told. -/
  properties : Properties := .empty
  deriving DecidableEq, Repr

/-- The kind of broker: the one that is set, else by whether servers are named. -/
def BrokerConfig.effectiveKind (b : BrokerConfig) : BrokerKind :=
  match b.kind with
  | some kind => kind
  | none => if (b.properties.get? "bootstrap.servers").isSome then .kafka else .memory

structure RegistryConfig where
  url : Option String := none
  timeout : Nat := 5000
  deriving DecidableEq, Repr

structure Config where
  topic : String := ""
  listen : SocketAddress := ⟨.v4 0 0 0 0, 8080⟩
  reads : Bool := true
  writes : Bool := true
  storage : StorageConfig := {}
  encryption : EncryptionConfig := {}
  broker : BrokerConfig := {}
  registry : RegistryConfig := {}
  timing : Replay.Timing := {}
  flushTimeout : Nat := 10000
  deriving DecidableEq, Repr

namespace Config

/-- The text of the key: the one given, else that of the key file. -/
def keyText (c : Config) (files : FileTree) : Except ConfigError String :=
  match c.encryption.key, c.encryption.keyFile with
  | some key, _ => .ok (Text.trim key)
  | none, some path =>
    match files.readText path with
    | .ok text => .ok (Text.trim text)
    | .error e => .error (.read path e)
  | none, none => .error (.missing Setting.key)

/-- The envelope of the log. -/
def envelope (c : Config) (files : FileTree) : Except ConfigError Envelope :=
  if ¬c.encryption.enabled then .ok .disabled
  else
    match c.keyText files with
    | .error e => .error e
    | .ok text =>
      match Aes.Key.ofHex text with
      | .ok key => .ok (.enabled key)
      | .error e => .error (.invalid Setting.key e.message)

/-- The service may start with a topic and, if it is to encrypt, with a key. -/
def validate (c : Config) (files : FileTree) : Except ConfigError Unit :=
  if Text.isAllBlank c.topic then .error (.missing Setting.topic)
  else if c.encryption.enabled then (c.envelope files).map fun _ => ()
  else .ok ()

end Config

end KeyedLog
