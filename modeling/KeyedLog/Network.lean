import KeyedLog.SocketAddress
import KeyedLog.Text.Blank
import KeyedLog.Uri

/-!
# The network

What listens at which address, how the text of a host and a port leads there, and which addresses
are free to listen at.
-/
namespace KeyedLog

namespace IpAddress

/-- The address meant: groups that hold an address of four octets stand for that. -/
def plain : IpAddress → IpAddress
  | v6 [0, 0, 0, 0, 0, 0xFFFF, g, h] _ => v4 (g / 256) (g % 256) (h / 256) (h % 256)
  | ip => ip

/-- Whether an address stands for all addresses of the machine. -/
def isAny : IpAddress → Bool
  | v4 a b c d => a == 0 && b == 0 && c == 0 && d == 0
  | v6 groups _ => groups.all (· = 0)

/-- Whether an address is one of the machine's own. -/
def isLocal (ip : IpAddress) : Bool :=
  match ip with
  | v4 a _ _ _ => a == 127 || ip.isAny
  | v6 groups _ => groups == [0, 0, 0, 0, 0, 0, 0, 1] || ip.isAny

def isV4 : IpAddress → Bool
  | v4 _ _ _ _ => true
  | v6 _ _ => false

/-- Whether listening at one address takes what goes to another. -/
def covers (listening dialed : IpAddress) : Bool :=
  listening == dialed ||
    (listening.isAny && dialed.isLocal && (dialed.isV4 || !listening.isV4))

/-- Where dialing an address leads. -/
def dialed : IpAddress → IpAddress
  | v4 0 0 0 0 => v4 127 0 0 1
  | v6 [0, 0, 0, 0, 0, 0, 0, 0] _ => v6 [0, 0, 0, 0, 0, 0, 0, 1] 0
  | ip => ip

end IpAddress

/-- A host and a port to dial. -/
structure Endpoint where
  host : String
  port : Nat
  deriving DecidableEq, Repr

namespace Endpoint

/-- Read a host and, after the last colon, a port. -/
def ofText? (text : String) : Option Endpoint :=
  match Text.splitLast? ':' text.toList with
  | some (host, port) => (Authority.readPort? port).map fun port => ⟨String.ofList host, port⟩
  | none => none

def text (e : Endpoint) : String := e.host ++ ":" ++ Decimal.ofNat e.port

/-- The addresses of a host: the one it spells out, or those of the machine itself. Other names
are not known. -/
def addresses (e : Endpoint) : List SocketAddress :=
  match SocketAddress.ofText? e.text with
  | some address => [address]
  | none =>
    if Text.lower e.host = "localhost" then
      [⟨.v6 [0, 0, 0, 0, 0, 0, 0, 1] 0, e.port⟩, ⟨.v4 127 0 0 1, e.port⟩]
    else []

end Endpoint

/-- What the one that takes a connection does. -/
inductive Peer where
  /-- It reads what is sent and never answers. -/
  | silent
  /-- It reads what is sent, answers, and closes the connection. -/
  | answering (bytes : Bytes)
  deriving DecidableEq, Repr

/-- What listens, and where. -/
abbrev Network := List (SocketAddress × Peer)

namespace Network

/-- The one that takes a connection to an address. -/
def peer? (net : Network) (dialed : SocketAddress) : Option Peer :=
  (net.find? fun (listening, _) =>
    listening.port == dialed.port && listening.ip.plain.covers dialed.ip.plain.dialed).map Prod.snd

/-- Dial the addresses of an endpoint, one after another. -/
def dial? (net : Network) (e : Endpoint) : Option Peer := e.addresses.findSome? net.peer?

/-- Why nothing can listen at an address. -/
inductive BindFault where
  | inUse
  | notLocal
  deriving DecidableEq, Repr

def BindFault.message : BindFault → String
  | .inUse => "Address already in use (os error 98)"
  | .notLocal => "Cannot assign requested address (os error 99)"

/-- Whether two listeners would get in each other's way. A free port is chosen for port zero. -/
def collide (a b : SocketAddress) : Bool :=
  a.port == b.port && a.port != 0 &&
    (a.ip.plain.covers b.ip.plain || b.ip.plain.covers a.ip.plain)

/-- Whether something more may listen at an address. -/
def bind (net : Network) (address : SocketAddress) : Except BindFault Unit :=
  if ¬address.ip.plain.isLocal then .error .notLocal
  else if net.any fun (listening, _) => collide listening address then .error .inUse
  else .ok ()

end Network

end KeyedLog
