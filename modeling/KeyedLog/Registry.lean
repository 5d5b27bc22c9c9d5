import KeyedLog.Http.Exchange
import KeyedLog.Http.Status
import KeyedLog.Json.Shape
import KeyedLog.Log.Error
import KeyedLog.Text.Quoted

/-!
# The schema registry

A client of the registry that lists its subjects.
-/
namespace KeyedLog

structure Registry where
  /-- The address that is dialed. -/
  address : String
  subjectsPath : String
  /-- How long a request may take, in milliseconds. -/
  timeout : Nat
  deriving DecidableEq, Repr

namespace Registry

/-- Why a URL is not one of a registry. -/
inductive UrlFault where
  | unreadable (url : String) (cause : Uri.Fault)
  | notHttp (url : String)
  deriving DecidableEq, Repr

def UrlFault.reason : UrlFault → String
  | .unreadable url cause => "schema registry url " ++ Text.quoted url ++ ": " ++ cause.message
  | .notHttp url => "schema registry url " ++ Text.quoted url ++ ": only http:// is supported"

def UrlFault.toBrokerError (e : UrlFault) : BrokerError := .config e.reason

/-- What is dialed for an authority: the whole of it if it has a port, else its host. -/
def addressOf (a : Authority) : String :=
  match a.port? with
  | some _ => a.text
  | none => String.ofList a.host ++ ":80"

/-- The path of the subjects below a path, whose slashes at the end do not count. -/
def subjectsPathOf (path : List Char) : String :=
  String.ofList (path.reverse.dropWhile (· = '/')).reverse ++ "/subjects"

def ofUrl (url : String) (timeout : Nat) : Except UrlFault Registry :=
  match Uri.ofText url with
  | .error e => .error (.unreadable url e)
  | .ok (.absolute scheme a target) =>
    if scheme = "http" then .ok ⟨addressOf a, subjectsPathOf target.fullPath, timeout⟩
    else .error (.notHttp url)
  | .ok _ => .error (.notHttp url)

def endpoint? (r : Registry) : Option Endpoint := Endpoint.ofText? r.address

/-- What types of answers are taken. -/
def accepted : String := "application/vnd.schemaregistry.v1+json, application/json"

def call (r : Registry) : Http.Call :=
  ⟨r.subjectsPath, [("host", r.address), ("accept", accepted), ("user-agent", "kvlog/0.1")]⟩

/-- Why there are no subjects. -/
inductive Fault where
  | unreachable (address : String)
  | badPath (cause : Uri.Fault)
  | noReply
  | refused (path : String) (status : Nat)
  | cutShort
  | timedOut
  | unexpected
  deriving DecidableEq, Repr

def Fault.reason : Fault → String
  | .unreachable address => "connect " ++ address
  | .badPath cause => cause.message
  | .noReply => "request"
  | .refused path status => "GET " ++ path ++ " answered " ++ Http.Status.text status
  | .cutShort => "body"
  | .timedOut => "request timed out"
  | .unexpected => "unexpected subjects payload"

def Fault.toBrokerError (e : Fault) : BrokerError := .schemaRegistry e.reason

/-- The subjects a reply lists. Whether it is a refusal shows before its body does. -/
def listed (r : Registry) (reply : Http.Reply) : Except Fault (List String) :=
  if ¬Http.Status.isSuccess reply.status then .error (.refused r.subjectsPath reply.status)
  else
    match reply.body? with
    | none => .error .cutShort
    | some body => (Json.wholeTexts body).mapError fun _ => .unexpected

/-- Ask for the subjects. -/
def subjects (r : Registry) (net : Network) : Except Fault (List String) × Http.Contact :=
  match Http.exchange net r.endpoint? r.timeout r.call with
  | (.ok reply, contact) => (r.listed reply, contact)
  | (.error .unreachable, contact) => (.error (.unreachable r.address), contact)
  | (.error (.badPath e), contact) => (.error (.badPath e), contact)
  | (.error .noReply, contact) => (.error .noReply, contact)
  | (.error .timedOut, contact) => (.error .timedOut, contact)

end Registry

end KeyedLog
