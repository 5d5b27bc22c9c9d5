import KeyedLog.Digest
import KeyedLog.Store.Slot
import KeyedLog.Text.Blank

/-!
# The store as a directory tree

Keys lie in slots of directories named after their digests. The ledger lies beside them: one
directory for each topic, with the name of the topic in a file and one file for each partition.
A new slot becomes visible with its key file, which is written last and removed first.
-/
namespace KeyedLog.Disk

open FileTree (Plan Step)

/-- The directory of a key's slots: the digest, cut in two. -/
def leaf (root : Location) (key : Bytes) : Location :=
  let name := (digest key).toList
  (root.join (String.ofList (name.take 3))).join (String.ofList (name.drop 3))

/-- The directory above a leaf. -/
def aboveLeaf (root : Location) (key : Bytes) : Location :=
  root.join (String.ofList ((digest key).toList.take 3))

/-- Open a store, creating its root if need be. -/
def planOpen (t : FileTree) (root : Location) : Plan := t.planDirectory root

/-- The steps of storing in a slot that is there. -/
def overwrite (directory : Location) (n : Nat) (value : Bytes) (correlation : String) :
    List Step :=
  [.write (Slot.file directory n Slot.valueExtension) value,
   .write (Slot.file directory n Slot.correlationExtension) (Utf8.encode correlation)]

/-- The steps of storing in a new slot. -/
def create (directory : Location) (n : Nat) (key value : Bytes) (correlation : String) :
    List Step :=
  overwrite directory n value correlation ++
    [.write (Slot.file directory n Slot.keyExtension) key]

/-- Store a value: in the slot that holds the key, else in the lowest free one. -/
def planPut (t : FileTree) (root : Location) (key value : Bytes) (correlation : String) : Plan :=
  let directory := leaf root key
  let made := t.planDirectory directory
  match made.failure with
  | some _ => made
  | none =>
    let t := (t.perform made.steps).2
    match Slot.scan t directory with
    | .error e => { made with failure := some e }
    | .ok slots =>
      match Slot.find t directory key slots with
      | .error e => { made with failure := some e }
      | .ok (some n) => { made with steps := made.steps ++ overwrite directory n value correlation }
      | .ok none =>
        { made with
          steps := made.steps ++ create directory (Slot.lowestFree slots) key value correlation }

/-- The value in the first slot that holds the key and has a value file. -/
def retrieveFrom (t : FileTree) (directory : Location) (key : Bytes) :
    List Nat → Except StateError (Option StoredValue)
  | [] => .ok none
  | n :: rest =>
    match Slot.readAt t (Slot.file directory n Slot.keyExtension) with
    | .error e => .error e
    | .ok held =>
      let valueFile := Slot.file directory n Slot.valueExtension
      if held ≠ key ∨ ¬t.exists? valueFile.path then retrieveFrom t directory key rest
      else
        match Slot.readAt t valueFile with
        | .error e => .error e
        | .ok value =>
          let correlationFile := Slot.file directory n Slot.correlationExtension
          if t.exists? correlationFile.path then
            (Slot.readAt t correlationFile).map fun bytes => some ⟨value, Utf8.lossy bytes⟩
          else .ok (some ⟨value, ""⟩)

def retrieve (t : FileTree) (root : Location) (key : Bytes) :
    Except StateError (Option StoredValue) :=
  let directory := leaf root key
  if t.isDirectory directory.path then
    match Slot.scan t directory with
    | .error e => .error e
    | .ok slots => retrieveFrom t directory key slots
  else .ok none

/-- The steps of removing a slot, and the directories it leaves empty. -/
def clear (root : Location) (key : Bytes) (n : Nat) : List Step :=
  let directory := leaf root key
  [.remove (Slot.file directory n Slot.keyExtension),
   .remove (Slot.file directory n Slot.valueExtension),
   .remove (Slot.file directory n Slot.correlationExtension),
   .prune directory,
   .prune (aboveLeaf root key)]

def planRemove (t : FileTree) (root : Location) (key : Bytes) : Plan :=
  let directory := leaf root key
  if t.isDirectory directory.path then
    match Slot.scan t directory with
    | .error e => { failure := some e }
    | .ok slots =>
      match Slot.find t directory key slots with
      | .error e => { failure := some e }
      | .ok none => {}
      | .ok (some n) => { steps := clear root key n }
  else {}

/-! ## The ledger -/

def ledgerRoot (root : Location) : Location := root.join "topicPartitionOffsets"

/-- The directory of the topics that share a digest. -/
def group (root : Location) (topic : String) : Location :=
  (ledgerRoot root).join (digest (Utf8.encode topic))

def topicNameFile (directory : Location) : Location := directory.join "topicName.txt"

def partitionExtension : String := "partition"

def partitionFile (directory : Location) (partition : Int) : Location :=
  directory.join (Decimal.ofInt partition ++ "." ++ partitionExtension)

/-- The directories in a directory, in the order of the bytes of their names. -/
def subdirectories (t : FileTree) (directory : Location) : Except StateError (List Location) :=
  match t.list directory.path with
  | .error e => .error (.io directory.text e)
  | .ok names =>
    let inside := names.filter fun name => t.isDirectory (directory.join name).path
    .ok ((inside.mergeSort fun a b => a ≤ b).map directory.join)

/-- The row of one file in a topic's directory; other files are none. -/
def readRow (t : FileTree) (topic : String) (directory : Location) (name : String) :
    Except StateError (Option Position) :=
  match Text.stemAndExtension name with
  | (stem, some extension) =>
    if extension = partitionExtension then
      let file := directory.join name
      match Decimal.readI32 stem with
      | .error _ => .error (.parse file.text "partition file name is not an integer")
      | .ok partition =>
        match Slot.readAt t file with
        | .error e => .error e
        | .ok bytes =>
          match Decimal.readI64 (Text.trim (Utf8.lossy bytes)) with
          | .error refusal => .error (.parse file.text refusal.message)
          | .ok offset => .ok (some ⟨topic, partition, offset⟩)
    else .ok none
  | (_, none) => .ok none

/-- The rows of a list of sources, as far as none of them fails. -/
def collect {α : Type} (read : α → Except StateError (List Position)) :
    List α → Except StateError (List Position)
  | [] => .ok []
  | x :: rest =>
    match read x with
    | .error e => .error e
    | .ok rows => (collect read rest).map (rows ++ ·)

/-- The rows of a topic's directory; one without a topic name has none. -/
def readTopic (t : FileTree) (directory : Location) : Except StateError (List Position) :=
  let nameFile := topicNameFile directory
  if t.exists? nameFile.path then
    match Slot.readAt t nameFile with
    | .error e => .error e
    | .ok bytes =>
      match t.list directory.path with
      | .error e => .error (.io directory.text e)
      | .ok names =>
        collect (fun name => (readRow t (Utf8.lossy bytes) directory name).map Option.toList) names
  else .ok []

def readGroup (t : FileTree) (directory : Location) : Except StateError (List Position) :=
  match subdirectories t directory with
  | .error e => .error e
  | .ok directories => collect (readTopic t) directories

def ledger (t : FileTree) (root : Location) : Except StateError (List Position) :=
  let directory := ledgerRoot root
  if t.isDirectory directory.path then
    match subdirectories t directory with
    | .error e => .error e
    | .ok groups => (collect (readGroup t) groups).map Position.sorted
  else .ok []

/-- The directory that holds a topic, else the number for a new one: one more than the greatest
number among the names. -/
def findTopic (t : FileTree) (topic : String) :
    Nat → List Location → Except StateError (Location ⊕ Nat)
  | next, [] => .ok (.inr next)
  | next, directory :: rest =>
    let next := match Decimal.readU32 (directory.below.getLast?.getD "") with
      | .ok n => max next (n + 1)
      | .error _ => next
    let nameFile := topicNameFile directory
    if t.exists? nameFile.path then
      match Slot.readAt t nameFile with
      | .error e => .error e
      | .ok name =>
        if name = Utf8.encode topic then .ok (.inl directory) else findTopic t topic next rest
    else findTopic t topic next rest

/-- The step that writes a row into its topic's directory. -/
def record (directory : Location) (p : Position) : Step :=
  .write (partitionFile directory p.partition) (Utf8.encode (Decimal.ofInt p.offset))

/-- Enter a row in the ledger, in place of the one for its partition. -/
def planAdvance (t : FileTree) (root : Location) (p : Position) : Plan :=
  let directory := group root p.topic
  let made := t.planDirectory directory
  match made.failure with
  | some _ => made
  | none =>
    let t := (t.perform made.steps).2
    match (subdirectories t directory).bind (findTopic t p.topic 0) with
    | .error e => { made with failure := some e }
    | .ok (.inl found) => { made with steps := made.steps ++ [record found p] }
    | .ok (.inr next) =>
      let fresh := directory.join (Decimal.ofNat next)
      let freshMade := t.planDirectory fresh
      match freshMade.failure with
      | some e => { steps := made.steps ++ freshMade.steps, failure := some e }
      | none =>
        { made with
          steps := made.steps ++ freshMade.steps ++
            [.write (topicNameFile fresh) (Utf8.encode p.topic), record fresh p] }

end KeyedLog.Disk
