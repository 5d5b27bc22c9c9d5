import KeyedLog.Config.File
import KeyedLog.Probe
import KeyedLog.Service.Running

/-!
# The command line

The words of a command line as a command, and what the program exits with. One command serves the
key-value API, the other probes a URL.
-/
namespace KeyedLog

inductive LogFormat where
  | text
  | json
  deriving DecidableEq, Repr

def LogFormat.ofName? (name : String) : Option LogFormat :=
  if name = "text" then some .text else if name = "json" then some .json else none

inductive Command where
  | serve (config : Option String) (format : LogFormat)
  | probe (url : String) (timeout : Nat)
  deriving DecidableEq, Repr

namespace CommandLine

/-- Why there is no command to carry out: help is asked for, or the words make none. -/
inductive Refusal where
  | help
  | usage
  deriving DecidableEq, Repr

/-! ## Words -/

inductive Word where
  /-- Only plain words follow. -/
  | separator
  | long (name : String) (value : Option String)
  | short (letters : List Char)
  | plain (text : String)
  deriving DecidableEq, Repr

def Word.ofText (text : String) : Word :=
  match text.toList with
  | ['-', '-'] => separator
  | '-' :: '-' :: cs =>
    match Text.splitFirst? '=' cs with
    | some (name, value) => long (String.ofList name) (some (String.ofList value))
    | none => long (String.ofList cs) none
  | '-' :: c :: cs => short (c :: cs)
  | _ => plain text

def Word.isPlain : Word → Bool
  | plain _ => true
  | _ => false

def Word.isHelp : Word → Bool
  | long name none => name == "help"
  | short (c :: _) => c == 'h'
  | _ => false

/-! ## Options -/

/-- What a command takes: options by name, each with the values it may have, and so many plain
words. -/
structure Grammar where
  options : List (String × (String → Bool))
  plain : Nat

structure Gathered where
  values : List (String × String) := []
  plain : List String := []
  deriving DecidableEq, Repr

/-- Take the value of an option, which may be given once. -/
def Gathered.take (found : Gathered) (g : Grammar) (name value : String) :
    Except Refusal Gathered :=
  match g.options.lookup name with
  | none => .error .usage
  | some isValue =>
    if isValue value ∧ found.values.lookup name = none then
      .ok { found with values := found.values ++ [(name, value)] }
    else .error .usage

/-- Take plain words. -/
def Gathered.takePlain (found : Gathered) (g : Grammar) (words : List String) :
    Except Refusal Gathered :=
  if found.plain.length + words.length ≤ g.plain then
    .ok { found with plain := found.plain ++ words }
  else .error .usage

/-- Gather what the words say, from left to right. The value of an option is behind `=` or is the
next word, which has to be a plain one. -/
def gather (g : Grammar) : Gathered → List String → Except Refusal Gathered
  | found, [] => .ok found
  | found, text :: rest =>
    let word := Word.ofText text
    if word.isHelp then .error .help
    else
      match word with
      | .separator => found.takePlain g rest
      | .plain text => (found.takePlain g [text]).bind fun found => gather g found rest
      | .short _ => .error .usage
      | .long name (some value) =>
        (found.take g name value).bind fun found => gather g found rest
      | .long name none =>
        match rest with
        | [] => .error .usage
        | value :: rest =>
          if (Word.ofText value).isPlain then
            (found.take g name value).bind fun found => gather g found rest
          else .error .usage

/-! ## Commands -/

def serveGrammar : Grammar where
  options := [("config", (· ≠ "")), ("log-format", fun v => (LogFormat.ofName? v).isSome)]
  plain := 0

def probeGrammar : Grammar where
  options := [("timeout-ms", fun v => (Decimal.readU64 v).toOption.isSome)]
  plain := 1

/-- The name of a file for the configuration: an option counts before the environment. -/
def configFile (found : Gathered) (environment : List (String × String)) :
    Except Refusal (Option String) :=
  match found.values.lookup "config", (Config.distinct environment).lookup Setting.file with
  | some path, _ => .ok (some path)
  | none, some path => if path = "" then .error .usage else .ok (some path)
  | none, none => .ok none

def readServe (environment : List (String × String)) (words : List String) :
    Except Refusal Command := do
  let found ← gather serveGrammar {} words
  let config ← configFile found environment
  let format := (found.values.lookup "log-format").bind LogFormat.ofName?
  return .serve config (format.getD .text)

/-- How long a probe takes at most where nothing is said, in milliseconds. -/
def probeTimeout : Nat := 5000

def readProbe (words : List String) : Except Refusal Command := do
  let found ← gather probeGrammar {} words
  let timeout := (found.values.lookup "timeout-ms").bind fun v => (Decimal.readU64 v).toOption
  match found.plain with
  | url :: _ => return .probe url (timeout.getD probeTimeout)
  | [] => throw .usage

/-- The commands that help can be asked for. -/
def topics : List String := ["serve", "probe", "help"]

/-- Read a command line, given the environment. -/
def read (environment : List (String × String)) : List String → Except Refusal Command
  | [] => .error .usage
  | first :: rest =>
    if first = "serve" then readServe environment rest
    else if first = "probe" then readProbe rest
    else if first = "help" then
      match rest with
      | [] => .error .help
      | [topic] => .error (if topic ∈ topics then .help else .usage)
      | _ => .error .usage
    else .error (if (Word.ofText first).isHelp then .help else .usage)

end CommandLine

/-! ## Exits -/

/-- What the program exits with. -/
structure Exit where
  code : Nat
  message : Option String := none
  /-- What is behind the message. -/
  cause : Option String := none
  deriving DecidableEq, Repr

namespace Exit

def success : Exit := ⟨0, none, none⟩

def ofRefusal : CommandLine.Refusal → Exit
  | .help => success
  | .usage => ⟨2, none, none⟩

def ofStartupError (e : StartupError) : Exit := ⟨1, some e.message, e.cause?⟩

def ofRunError (e : RunError) : Exit := ⟨1, some e.message, e.cause?⟩

def ofUrlFault (e : Probe.UrlFault) : Exit := ⟨1, some e.message, e.cause?⟩

/-- A probe exits well if the service is healthy. -/
def ofHealth (healthy : Bool) : Exit := ⟨if healthy then 0 else 1, none, none⟩

end Exit

/-- Load a configuration and take the address it asks for. -/
def Service.launch (path : Option String) (environment : List (String × String))
    (files : FileTree) (net : Network) : Except StartupError Service :=
  match Config.load files path environment with
  | .error e => .error (.configuration e)
  | .ok c => Service.bind c files net

/-- Probe a URL. -/
def Probe.run (net : Network) (url : String) (timeout : Nat) : Exit × Http.Contact :=
  match Probe.ofUrl url with
  | .error e => (.ofUrlFault e, .none)
  | .ok p =>
    let (healthy, contact) := p.perform net timeout
    (.ofHealth healthy, contact)

end KeyedLog
