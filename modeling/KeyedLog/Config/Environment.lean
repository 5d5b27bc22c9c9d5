import KeyedLog.Config.Basic

/-!
# The environment

Named variables override what a file sets. Variables of brokers are passed on to them under names
with dots.
-/
namespace KeyedLog

namespace Setting

def location : String := "KV_API_STATE_STORAGE_DISK_LOCATION"
def password : String := "KV_API_STATE_STORAGE_SQLITE_PASSWORD"
def encrypt : String := "KV_API_ENCRYPT_DATA_ON_KAFKA"
def keyLocation : String := "KV_API_AES_KEY_LOCATION"
def disableWrite : String := "KV_API_DISABLE_WRITE"
def disableRead : String := "KV_API_DISABLE_READ"
def listen : String := "KV_API_LISTEN_ADDRESS"
def registryUrl : String := "KAFKA_SCHEMA_REGISTRY_URL"
def registryTimeout : String := "KAFKA_SCHEMA_REGISTRY_REQUEST_TIMEOUT_MS"

/-- What the names of all variables of brokers start with. -/
def brokerFamily : String := "KAFKA_"

/-- What the names of all variables of the schema registry start with. -/
def registryFamily : String := "KAFKA_SCHEMA_REGISTRY_"

/-- The name of the configuration file is in this variable. -/
def file : String := "KVLOG_CONFIG"

def belongsTo (family name : String) : Bool := family.toList.isPrefixOf name.toList

/-- The name of a broker's property: the rest of the variable's name, in lower case and with dots
for underscores. -/
def propertyName (name : String) : String :=
  String.ofList (((Text.lower name).toList.drop brokerFamily.length).map fun c =>
    if c = '_' then '.' else c)

end Setting

namespace Config

def isTrue (value : String) : Bool := Text.lower (Text.trim value) == "true"

/-- Apply one variable. -/
def applyVariable (c : Config) (name value : String) : Except ConfigError Config :=
  if name = Setting.topic then .ok { c with topic := Text.trim value }
  else if name = Setting.backend then
    .ok { c with storage.backend := ((Backend.ofText value).toOption).getD .sqlite }
  else if name = Setting.location then
    .ok { c with storage.location := (Text.nonBlank? value).map Text.trim }
  else if name = Setting.password then .ok { c with storage.password := Text.nonBlank? value }
  else if name = Setting.encrypt then .ok { c with encryption.enabled := isTrue value }
  else if name = Setting.key then .ok { c with encryption.key := Text.nonBlank? value }
  else if name = Setting.keyLocation then
    .ok { c with encryption.keyFile := Text.nonBlank? value }
  else if name = Setting.disableWrite then .ok { c with writes := !isTrue value }
  else if name = Setting.disableRead then .ok { c with reads := !isTrue value }
  else if name = Setting.listen then
    match SocketAddress.ofText? (Text.trim value) with
    | some address => .ok { c with listen := address }
    | none => .error (.invalid Setting.listen "invalid socket address syntax")
  else if name = Setting.broker then
    (BrokerKind.ofText value).map fun kind => { c with broker.kind := some kind }
  else if name = Setting.registryUrl then .ok { c with registry.url := Text.nonBlank? value }
  else if name = Setting.registryTimeout then
    match Decimal.readU64 (Text.trim value) with
    | .ok n => .ok { c with registry.timeout := n }
    | .error refusal => .error (.invalid Setting.registryTimeout refusal.message)
  else if Setting.belongsTo Setting.registryFamily name then .ok c
  else if Setting.belongsTo Setting.brokerFamily name ∧ value ≠ "" then
    .ok { c with
      broker.properties := c.broker.properties.insert (Setting.propertyName name) value }
  else .ok c

/-- Apply variables in order, up to the first that fails; the configuration reached is told in
either case. -/
def applyAll (c : Config) : List (String × String) → Option ConfigError × Config
  | [] => (none, c)
  | (name, value) :: rest =>
    match c.applyVariable name value with
    | .ok c => c.applyAll rest
    | .error e => (some e, c)

/-- Apply an environment. -/
def applyEnvironment (c : Config) (vars : List (String × String)) :
    Except ConfigError Config :=
  match c.applyAll vars with
  | (none, c) => .ok c
  | (some e, _) => .error e

end Config

end KeyedLog
