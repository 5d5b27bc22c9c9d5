import KeyedLog.Config.Basic
import KeyedLog.Registry

/-!
# Starting up

A configuration becomes a service that can run if it is sound, names a usable registry and a kind
of broker there is a client for, and asks for an address that is free.
-/
namespace KeyedLog

/-- Why a service does not start. -/
inductive StartupError where
  | configuration (cause : ConfigError)
  | envelope (cause : ConfigError)
  | registry (cause : Registry.UrlFault)
  | noBrokerClient
  | address (listen : SocketAddress) (cause : Network.BindFault)
  deriving DecidableEq, Repr

namespace StartupError

def message : StartupError → String
  | configuration _ => "invalid configuration"
  | envelope cause => cause.message
  | registry _ => "invalid schema registry url"
  | noBrokerClient => "kafka broker configured but kvlogd was built without the `kafka` feature"
  | address listen _ => "failed to bind " ++ listen.text

/-- What is behind the message, if there is more to tell. -/
def cause? : StartupError → Option String
  | configuration cause => some cause.message
  | envelope (.read _ cause) => some cause.message
  | envelope _ => none
  | registry cause => some cause.toBrokerError.message
  | noBrokerClient => none
  | address _ cause => some cause.message

end StartupError

/-- A service that is ready to run. -/
structure Service where
  config : Config
  envelope : Envelope
  registry : Option Registry
  deriving DecidableEq, Repr

namespace Service

def registryOf (c : RegistryConfig) : Except Registry.UrlFault (Option Registry) :=
  match c.url with
  | none => .ok none
  | some url => (Registry.ofUrl url c.timeout).map some

/-- Check a configuration and take the address it asks for. -/
def bind (c : Config) (files : FileTree) (net : Network) : Except StartupError Service := do
  (c.validate files).mapError .configuration
  let envelope ← (c.envelope files).mapError .envelope
  let registry ← (registryOf c.registry).mapError .registry
  if c.broker.effectiveKind = .kafka then throw .noBrokerClient
  (net.bind c.listen).mapError (.address c.listen)
  return ⟨c, envelope, registry⟩

end Service

end KeyedLog
