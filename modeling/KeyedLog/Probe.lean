import KeyedLog.Http.Exchange
import KeyedLog.Http.Status
import KeyedLog.Text.Quoted

/-!
# The health probe

One request to a URL: the service there is healthy if the answer says that all went well.
-/
namespace KeyedLog

structure Probe where
  endpoint : Endpoint
  /-- The host as the request names it. -/
  host : String
  path : String
  deriving DecidableEq, Repr

namespace Probe

/-- Why a URL cannot be probed. -/
inductive UrlFault where
  | unreadable (url : String) (cause : Uri.Fault)
  | notHttp (url : String)
  deriving DecidableEq, Repr

def UrlFault.message : UrlFault → String
  | .unreadable url _ => "invalid probe url " ++ Text.quoted url
  | .notHttp url => "probe url must be http://, got " ++ Text.quoted url

def UrlFault.cause? : UrlFault → Option String
  | .unreadable _ cause => some cause.message
  | .notHttp _ => none

/-- What is dialed for an authority. -/
def endpointOf (a : Authority) : Endpoint := ⟨String.ofList a.host, a.port?.getD 80⟩

def ofUrl (url : String) : Except UrlFault Probe :=
  match Uri.ofText url with
  | .error e => .error (.unreadable url e)
  | .ok (.absolute scheme a target) =>
    if scheme = "http" then .ok ⟨endpointOf a, a.text, target.text⟩ else .error (.notHttp url)
  | .ok _ => .error (.notHttp url)

def call (p : Probe) : Http.Call :=
  ⟨p.path, [("host", p.host), ("connection", "close"), ("user-agent", "kvlogd-probe/0.1.0")]⟩

/-- Whether the service is healthy. -/
def perform (p : Probe) (net : Network) (timeout : Nat) : Bool × Http.Contact :=
  match Http.exchange net (some p.endpoint) timeout p.call with
  | (.ok reply, contact) => (Http.Status.isSuccess reply.status, contact)
  | (.error _, contact) => (false, contact)

end Probe

end KeyedLog
