import KeyedLog.CommandLine
import KeyedLog.FileTree.Listing
import KeyedLog.Http.Wire
import Std.Async.Signal
import Std.Async.TCP
import Std.Async.Timer

/-!
# The program

The command line with a machine around it: its environment, the files that a configuration names,
and its network. What the program does is decided elsewhere; here it is told what the machine
holds. The state of a service lasts as long as the program runs.
-/
namespace KeyedLog.Machine

open Std.Async Std.Async.TCP

/-! ## Environment and files -/

/-- The variables of the process. -/
def environment : IO (List (String × String)) := do
  let bytes ← IO.FS.readBinFile "/proc/self/environ"
  let entries := Text.split '\x00' (Utf8.lossy bytes.toList)
  return entries.filterMap fun entry =>
    (Text.splitFirst? '=' entry.toList).map fun (n, v) => (String.ofList n, String.ofList v)

/-- The files with one of the machine's among them, if it is there. -/
def withFile (files : FileTree) (path : String) : IO FileTree := do
  match ← (IO.FS.readBinFile path).toBaseIO with
  | .ok bytes => return (files.plant path bytes.toList).toOption.getD files
  | .error (.inappropriateType ..) => return files.plantDirectory path
  | .error _ => return files

/-- The files that count for a configuration: its own, and that of the key. -/
def configFiles (path : Option String) (vars : List (String × String)) : IO FileTree := do
  let files ← path.toList.foldlM withFile []
  let config := ((path.map (Config.ofFile files)).getD (.ok {})).toOption.bind fun c =>
    (c.applyEnvironment (Config.distinct vars)).toOption
  (config.bind (·.encryption.keyFile)).toList.foldlM withFile files

/-! ## Network -/

def netAddress (a : SocketAddress) : Std.Net.SocketAddress :=
  let port := a.port.toUInt16
  match a.ip.plain with
  | .v4 a b c d => .v4 ⟨.ofParts a.toUInt8 b.toUInt8 c.toUInt8 d.toUInt8, port⟩
  | .v6 groups _ =>
    let g (n : Nat) : UInt16 := (groups.getD n 0).toUInt16
    .v6 ⟨.ofParts (g 0) (g 1) (g 2) (g 3) (g 4) (g 5) (g 6) (g 7), port⟩

/-- Whether more may come that belongs to a reply. -/
def isOpen (bytes : Bytes) : Bool :=
  match Http.Reply.ofBytes? bytes with
  | none => true
  | some reply => reply.bodyEnd == .closing || reply.body?.isNone

/-- Receive a reply, adding to what has come. -/
partial def receiveReply (client : Socket.Client) (found : IO.Ref Bytes) : Async Bytes := do
  let bytes ← found.get
  if ¬isOpen bytes then return bytes
  match ← client.recv? 65536 with
  | none => return bytes
  | some more =>
    found.set (bytes ++ more.toList)
    receiveReply client found

/-- Call an address, and tell what the one there does. -/
def call (address : SocketAddress) (timeout : Nat) (c : Http.Call) : IO Network := do
  let client ← Socket.Client.mk
  match ← (client.connect (netAddress address)).block.toBaseIO with
  | .error _ => return []
  | .ok () =>
    let found ← IO.mkRef []
    let exchange : Async Bytes := do
      client.send ⟨c.bytes.toArray⟩
      receiveReply client found
    let timer : Async Bytes := do
      sleep (.ofNat (min timeout 86400000))
      found.get
    let bytes := (← (Async.race exchange timer).block.toBaseIO).toOption.getD []
    return [(address, if bytes = [] then .silent else .answering bytes)]

/-- Call the addresses of an endpoint until one takes the call. -/
def callFirst (endpoint : Option Endpoint) (timeout : Nat) (c : Http.Call) : IO Network := do
  let addresses := (endpoint.map (·.addresses)).getD []
  addresses.foldlM (fun net a => if net = [] then call a timeout c else pure net) []

/-! ## Serving -/

/-- Receive a request, adding to what has come. -/
partial def receiveRequest (client : Socket.Client) (found : Bytes) :
    Async (Option Http.Request) := do
  match Http.Received.ofBytes found with
  | .request r => return some r
  | .malformed => return none
  | .incomplete =>
    match ← client.recv? 65536 with
    | some more => receiveRequest client (found ++ more.toList)
    | none => return none

/-- Answer the one request of a connection; the service may have stopped. -/
def answer (client : Socket.Client) (r : Running) : Async (Bool × Running) := do
  match ← receiveRequest client [] with
  | none => return (true, r)
  | some request =>
    match r.request request with
    | (none, r) => return (false, r)
    | (some response, r) =>
      client.send ⟨response.bytes.toArray⟩
      client.shutdown
      return (true, r)

/-- Take connections one after another until there is a signal or the service stops. -/
partial def serve (server : Socket.Server) (signal : Signal.Waiter) (r : Running) :
    Async Running := do
  let accepted : Option Socket.Client ← Selectable.one #[
    .case server.acceptSelector fun client => return some client,
    .case signal.selector fun () => return none]
  match accepted with
  | none => return r
  | some client =>
    let (goesOn, after) ← try answer client r catch _ => pure (true, r)
    if goesOn then serve server signal after else return after

/-- Listen at an address, if it is free. -/
def listen? (address : SocketAddress) : IO (Option Socket.Server) := do
  let attempt : IO Socket.Server := do
    let server ← Socket.Server.mk
    server.bind (netAddress address)
    server.listen 128
    return server
  return (← attempt.toBaseIO).toOption

/-- What the registry does when it is asked for its subjects. -/
def registryNetwork (r : Option Registry) : IO Network :=
  match r with
  | some r => callFirst r.endpoint? r.timeout r.call
  | none => return []

def runService (s : Service) (files : FileTree) : IO Exit := do
  match ← listen? s.config.listen with
  | none => return .ofStartupError (.address s.config.listen .inUse)
  | some server =>
    match (Running.start s files (← registryNetwork s.registry) .serial).1 with
    | .error e => return .ofRunError e
    | .ok r =>
      let seed := (← IO.getRandomBytes 6).foldl (fun n b => 256 * n + b.toNat) 0
      let r := { r with drawn := 65536 * seed, issued := seed }
      let r ← (serve server (← Signal.Waiter.mk .sigint false) r).block
      match r.stop.1 with
      | .ok () => return .success
      | .error e => return .ofRunError e

/-! ## Commands -/

def carryOut (vars : List (String × String)) : Command → IO Exit
  | .serve path _ => do
    let files ← configFiles path vars
    match Service.launch path vars files [] with
    | .error e => return .ofStartupError e
    | .ok s => runService s files
  | .probe url timeout => do
    match Probe.ofUrl url with
    | .error e => return .ofUrlFault e
    | .ok p => return (Probe.run (← callFirst (some p.endpoint) timeout p.call) url timeout).1

def usage : String :=
  "Usage: kvlogd serve [--config <CONFIG>] [--log-format <text|json>]\n" ++
    "       kvlogd probe [--timeout-ms <TIMEOUT_MS>] <URL>"

/-- Tell what is to be said on the way out. -/
def report (e : Exit) : IO Unit := do
  if let some message := e.message then
    IO.eprintln ("Error: " ++ message)
    if let some cause := e.cause then IO.eprintln ("\nCaused by:\n    " ++ cause)

end KeyedLog.Machine

open KeyedLog in
def main (args : List String) : IO UInt32 := do
  let vars ← Machine.environment
  match CommandLine.read vars args with
  | .error refusal =>
    if refusal = .help then IO.println Machine.usage else IO.eprintln Machine.usage
    return (Exit.ofRefusal refusal).code.toUInt32
  | .ok command =>
    let exit ← Machine.carryOut vars command
    Machine.report exit
    return exit.code.toUInt32
