import KeyedLog.Http.MediaType
import KeyedLog.Http.Message
import KeyedLog.Json.Shape
import KeyedLog.Publisher
import KeyedLog.Store.Basic
import KeyedLog.Supply

/-!
# The HTTP gateway

Writes are published to the log, reads are answered from the local store. Either side can be
missing, and then its routes are too. Every answer to a read or a write names the operation's
correlation id.
-/
namespace KeyedLog.Http

/-- What the routes work with. -/
structure Gateway where
  log : Log
  publisher : Option Publisher
  store : Option StateStore
  files : FileTree := []
  supply : Supply
  /-- How many initial blocks are used up. -/
  drawn : Nat := 0
  /-- How many correlation ids were generated. -/
  issued : Nat := 0
  /-- Whether the routes of a missing side are there all the same. -/
  mountsAll : Bool := false
  /-- A reading of the ledger that fails, counted from one within a request. -/
  ledgerFault : Option (Nat × StateError) := none

inductive Route where
  | health
  | live
  | ready
  | store
  | storeBase64
  | remove
  | retrieve
  | retrieveBase64
  deriving DecidableEq, Repr

namespace Route

def ofPath? (path : String) : Option Route :=
  if path = "/healthz" then some health
  else if path = "/healthz/live" then some live
  else if path = "/healthz/ready" then some ready
  else if path = "/store" then some store
  else if path = "/store/b64" then some storeBase64
  else if path = "/remove" then some remove
  else if path = "/retrieve" then some retrieve
  else if path = "/retrieve/b64" then some retrieveBase64
  else none

/-- Whether the route only looks at the state of health. -/
def isHealth : Route → Bool
  | health | live | ready => true
  | _ => false

def isWrite : Route → Bool
  | store | storeBase64 | remove => true
  | _ => false

/-- The methods a route takes. -/
def methods (r : Route) : List String := if r.isHealth then ["GET", "HEAD"] else ["POST"]

end Route

namespace Gateway

/-- The greatest body that is read. -/
def bodyLimit : Nat := 2097152

/-- The correlation id of a request: the one it names unless that is blank, else a fresh one. -/
def correlationOf (g : Gateway) (r : Request) : String × Gateway :=
  match ((r.header? "x-correlation-id").bind visible?).bind Text.nonBlank? with
  | some id => (id, g)
  | none => (g.supply.ids g.issued, { g with issued := g.issued + 1 })

/-- The initial blocks that come next. -/
def blocks (g : Gateway) : Nat → Aes.Draw := fun n => g.supply.blocks (g.drawn + n)

/-- Publish a message. -/
def publish (g : Gateway) (p : Publisher) (m : Message) : Except PublishError Unit × Gateway :=
  match p.publish g.log g.blocks m with
  | .error e => (.error e, { g with drawn := g.drawn + m.draws })
  | .ok log => (.ok (), { g with log := log, drawn := g.drawn + m.draws })

/-- What is missing answers so. -/
def disabled : Response := .plain 404 "disabled"

/-- A request to store a value. -/
structure StoreRequest where
  key : String
  value : String
  headers : List (String × String)
  deriving DecidableEq, Repr

/-- The members of a request to store. -/
def storeMembers : List Json.Member :=
  [⟨"key", .text⟩, ⟨"value", .text⟩, ⟨"headers", .optionalTexts⟩]

/-- The members of a request that names a key only. -/
def keyMembers : List Json.Member := [⟨"key", .text⟩]

def readStore (body : Bytes) : Except Json.Fault StoreRequest :=
  match Json.wholeRecord storeMembers body with
  | .error e => .error e
  | .ok [.text key, .text value, .texts headers] => .ok ⟨key, value, headers.getD []⟩
  | .ok _ => .error .mistyped

def readKey (body : Bytes) : Except Json.Fault String :=
  match Json.wholeRecord keyMembers body with
  | .error e => .error e
  | .ok [.text key] => .ok key
  | .ok _ => .error .mistyped

/-- How the texts of a request stand for bytes. -/
abbrev TextDecoding := String → Except Base64.Fault Bytes

def plainDecoding : TextDecoding := fun text => .ok (Utf8.encode text)

def decodeHeaders (decode : TextDecoding) :
    List (String × String) → Except Base64.Fault (List Header)
  | [] => .ok []
  | (name, value) :: rest =>
    match decode value with
    | .error e => .error e
    | .ok bytes => (decodeHeaders decode rest).map ((name, bytes) :: ·)

/-- The message a request to store stands for: its headers are decoded first, then the key, then
the value. -/
def StoreRequest.message (s : StoreRequest) (decode : TextDecoding) (correlation : String) :
    Except Base64.Fault Message :=
  match decodeHeaders decode s.headers with
  | .error e => .error e
  | .ok headers =>
    match decode s.key with
    | .error e => .error e
    | .ok key =>
      match decode s.value with
      | .error e => .error e
      | .ok value => .ok ⟨key, some value, headers, correlation⟩

/-- The id of a request to store: that of its body, else that of the request. -/
def storeCorrelation (g : Gateway) (r : Request) (s : StoreRequest) : String × Gateway :=
  match s.headers.lookup Correlation.headerName with
  | some id => (id, g)
  | none => g.correlationOf r

def storeWith (g : Gateway) (decode : TextDecoding) (r : Request) (s : StoreRequest) :
    Response × Gateway :=
  let (id, g) := g.storeCorrelation r s
  match s.message decode id with
  | .error e =>
    let (id, g) := g.correlationOf r
    (.correlated id 400 ("invalid base64: " ++ e.message), g)
  | .ok m =>
    match g.publisher with
    | none => (disabled, g)
    | some p =>
      match g.publish p m with
      | (.ok (), g) => (.correlated id 200 "Stored", g)
      | (.error _, g) => (.correlated id 500 "Storage failed", g)

def removeKey (g : Gateway) (r : Request) (key : String) : Response × Gateway :=
  match g.publisher with
  | none => (disabled, g)
  | some p =>
    let (id, g) := g.correlationOf r
    match g.publish p ⟨Utf8.encode key, none, [], id⟩ with
    | (.ok (), g) => (.correlated id 200 "Removed", g)
    | (.error _, g) => (.correlated id 500 "Removal failed", g)

/-- Look a key up. What is found answers with its own correlation id. -/
def lookUp (g : Gateway) (r : Request) (key : Bytes) (render : Bytes → String) :
    Response × Gateway :=
  match g.store with
  | none => (disabled, g)
  | some store =>
    let (id, g) := g.correlationOf r
    match store.get? g.files key with
    | .ok (some hit) => (.correlated hit.correlation 200 (render hit.value), g)
    | .ok none => (.correlated id 200 "", g)
    | .error _ => (.correlated id 500 "Retrieval failed", g)

def retrieveBase64 (g : Gateway) (r : Request) (key : String) : Response × Gateway :=
  match Base64.decodeText key with
  | .error e =>
    let (id, g) := g.correlationOf r
    (.correlated id 400 ("invalid base64: " ++ e.message), g)
  | .ok bytes => g.lookUp r bytes Base64.encodeText

/-- The ledger as the `n`-th reading within a request finds it. -/
def readLedger (g : Gateway) (store : StateStore) (n : Nat) : Except StateError (List Position) :=
  match g.ledgerFault with
  | some (m, e) => if n = m then .error e else store.ledger g.files
  | none => store.ledger g.files

def behind : String := "State hasn't caught up"

/-- How one partition is reported while it is behind. -/
def progressLine (p : Progress) : String :=
  "\npartition " ++ Decimal.ofInt p.partition ++ ": consumed " ++
    (match p.consumed with
     | some offset => Decimal.ofInt offset
     | none => "none") ++
    " / target " ++ Decimal.ofInt p.target

/-- Whether the store has caught up, and if not, how far it is. -/
def readiness (g : Gateway) : Response × Gateway :=
  match g.store with
  | none =>
    let body := if g.publisher.isSome then "ready" else "Both reading and writing are disabled"
    (.plain 200 body, g)
  | some store =>
    if store.latch.latched then (.plain 200 "ready", g)
    else
      match g.readLedger store 1 with
      | .error _ => (.plain 503 behind, g)
      | .ok rows =>
        match store.latch.evaluate rows with
        | (true, latch) =>
          (.plain 200 "ready", { g with store := some { store with latch := latch } })
        | (false, _) =>
          let lines := match g.readLedger store 2 with
            | .ok rows => (store.latch.progress rows).map progressLine
            | .error _ => []
          (.plain 503 (String.join (behind :: lines)), g)

/-- Hand the body over, if it is of the right type, not too long, and reads as wanted. -/
def withBody {α : Type} (g : Gateway) (r : Request) (read : Bytes → Except Json.Fault α)
    (handle : α → Response × Gateway) : Response × Gateway :=
  let type := ((r.header? "content-type").bind visible?).bind MediaType.ofText?
  if ¬type.any MediaType.isJson then (.refusal 415, g)
  else if bodyLimit < r.body.length then (.refusal 413, g)
  else
    match read r.body with
    | .error .malformed => (.refusal 400, g)
    | .error .mistyped => (.refusal 422, g)
    | .ok value => handle value

def handle (g : Gateway) (r : Request) : Route → Response × Gateway
  | .health => (.plain 200 "Started successfully", g)
  | .live => (.plain 200 "Alive and well", g)
  | .ready => g.readiness
  | .store => g.withBody r readStore (g.storeWith plainDecoding r)
  | .storeBase64 => g.withBody r readStore (g.storeWith Base64.decodeText r)
  | .remove => g.withBody r readKey (g.removeKey r)
  | .retrieve => g.withBody r readKey fun key => g.lookUp r (Utf8.encode key) Utf8.lossy
  | .retrieveBase64 => g.withBody r readKey (g.retrieveBase64 r)

/-- Whether a route is there. -/
def mounts (g : Gateway) (route : Route) : Bool :=
  g.mountsAll || route.isHealth || (if route.isWrite then g.publisher.isSome else g.store.isSome)

/-- Answer a request. The answer to `HEAD` has no body. -/
def serve (g : Gateway) (r : Request) : Response × Gateway :=
  match Route.ofPath? r.route with
  | none => (.notFound, g)
  | some route =>
    if ¬g.mounts route then (.notFound, g)
    else if r.method ∈ route.methods then
      let (response, g) := g.handle r route
      (if r.method = "HEAD" then { response with body := some "" } else response, g)
    else (.methodNotAllowed (String.intercalate "," route.methods), g)

end Gateway

end KeyedLog.Http
