import KeyedLog.Proofs.Store.Database
import KeyedLog.Proofs.Store.Dict
import KeyedLog.Proofs.Store.DiskKeys
import KeyedLog.Proofs.Store.DiskRows
import KeyedLog.Store.Basic

/-!
# What a state store holds

In each of its forms a store holds contents, and each operation does to the store what it does to
the contents. A tree needs room for them; the other forms do not. Whatever number of its steps an
operation has performed on a tree, there are contents in it.
-/
namespace KeyedLog

namespace Disk

/-- With these values, and the rows as they are, contents have a property. -/
def WithValues (m : Contents) (R : Contents → Prop) (g : Bytes → Option StoredValue) : Prop :=
  ∃ m', m'.get? = g ∧ m'.offset? = m.offset? ∧ R m'

/-- With these rows, and the values as they are, contents have a property. -/
def WithRows (m : Contents) (R : Contents → Prop) (g : String → Int → Option Int) : Prop :=
  ∃ m', m'.offset? = g ∧ m'.get? = m.get? ∧ R m'

/-- A tree below whose root contents lie. In a tidy ledger every directory of a topic has rows. -/
def Lies (tidy : Prop) (t : FileTree) (root : Location) (m : Contents) : Prop :=
  ∃ v, t.Shows root.path v ∧ KeysHold v m.get? ∧
    LedgerHolds tidy (fun names => v (ledgerName :: names)) m.offset?

/-- A tree that holds given contents below a root. -/
structure Holds (t : FileTree) (root : Location) (m : Contents) : Prop where
  lies : Lies True t root m
  fits : m.Fits

/-- An empty directory has no slots. -/
theorem keysHold_empty :
    KeysHold (fun names => if names = [] then some .directory else none) ({} : Contents).get? where
  above := fun _ => .inl rfl
  leaves := fun _ => .inl rfl
  slots := by
    intro d
    constructor <;> simp [leafNames]

variable {t : FileTree} {root : Location} {m : Contents}

namespace Lies

variable {tidy : Prop} {R : Contents → Prop}

theorem of_empty (hwell : t.WellFormed) (hempty : t.isEmptyDirectory root.path = true) :
    Lies tidy t root {} := by
  refine ⟨_, FileTree.Shows.of_empty hwell hempty, keysHold_empty, ?_⟩
  constructor
  · exact .inl rfl
  · simp
  · intro d
    refine ⟨[], ?_⟩
    constructor <;> simp [rowsIn]

/-- The order in which directories list their entries is of no account. -/
theorem perm {s : FileTree} (h : Lies tidy t root m) (hperm : t.Perm s) : Lies tidy s root m := by
  obtain ⟨v, ht, hkeys, hledger⟩ := h
  exact ⟨v, ht.perm hperm, hkeys, hledger⟩

theorem retrieve (h : Lies tidy t root m) (key : Bytes) :
    Disk.retrieve t root key = .ok (m.get? key) := by
  obtain ⟨v, ht, hkeys, -⟩ := h
  exact retrieve_ok ht hkeys key

theorem ledger (h : Lies tidy t root m) (hm : m.InRange) :
    ∃ rows, Disk.ledger t root = .ok rows ∧ m.Lists rows := by
  obtain ⟨v, ht, -, hledger⟩ := h
  exact ledger_ok ht hledger hm

/-- There is nothing to do for opening a store that was opened before. -/
theorem planOpen (h : Lies tidy t root m) : Disk.planOpen t root = {} := by
  obtain ⟨v, ht, -, -⟩ := h
  exact ht.planDirectory_root rfl

/-- What the slots show while the ledger stays. -/
theorem of_keysShow {v : Path → Option Node} {u : FileTree}
    (hledger : LedgerHolds tidy (fun names => v (ledgerName :: names)) m.offset?)
    (hshow : KeysShow root v (WithValues m R) u) : ∃ m', R m' ∧ Lies False u root m' := by
  obtain ⟨w, _, hu, hkeys, hsame, m', rfl, hoffset, hm'⟩ := hshow
  refine ⟨m', hm', w, hu, hkeys, ?_⟩
  simp only [hsame, hoffset]
  exact hledger.untidy

/-- What the ledger shows while the slots stay. -/
theorem of_ledgerShows {v : Path → Option Node} {u : FileTree} (hkeys : KeysHold v m.get?)
    (hshow : LedgerShows root v (WithRows m R) u) : ∃ m', R m' ∧ Lies False u root m' := by
  obtain ⟨w, _, hu, hledger, hsame, m', rfl, hget, hm'⟩ := hshow
  exact ⟨m', hm', w, hu, hget ▸ hkeys.beside hsame, hledger⟩

theorem put (h : Lies tidy t root m) (key value : Bytes) (correlation : String)
    (hroom : (m.keysIn (digest key)).card ≤ Decimal.maxU32) (hold : R m)
    (hmixed : ∀ stored, m.get? key = some stored →
      R (m.put key ⟨value, stored.correlation⟩))
    (hnew : R (m.put key ⟨value, correlation⟩)) :
    ∃ s, (planPut t root key value correlation).failure = none ∧
      t.Passes (planPut t root key value correlation).steps s
        (fun u => ∃ m', R m' ∧ Lies False u root m') ∧
      Lies tidy s root (m.put key ⟨value, correlation⟩) := by
  obtain ⟨v, ht, hkeys, hledger⟩ := h
  have hget := m.get?_put_eq_update key
  have hlive : ∀ k, digest k = digest key → (m.get? k).isSome → k ∈ m.keysIn (digest key) :=
    fun k hk hlive => Contents.mem_keysIn.mpr ⟨hlive, hk⟩
  obtain ⟨s, w, n, hmade, hpasses, hs, hstores⟩ :=
    put_passes (R := WithValues m R) ht hkeys value correlation ⟨_, hroom, hlive⟩
      ⟨m, rfl, rfl, hold⟩
      (fun stored hstored => ⟨_, hget _, rfl, hmixed stored hstored⟩) ⟨_, hget _, rfl, hnew⟩
  have hkeys' := hstores.keysHold hkeys
  refine ⟨s, hmade, hpasses.imp fun _ => of_keysShow hledger, w, hs, hget _ ▸ hkeys', ?_⟩
  simp only [hstores.ledger]
  exact hledger

theorem remove (h : Lies tidy t root m) (key : Bytes) (hold : R m) (hnew : R (m.remove key)) :
    ∃ s, (planRemove t root key).failure = none ∧
      t.Passes (planRemove t root key).steps s (fun u => ∃ m', R m' ∧ Lies False u root m') ∧
      Lies tidy s root (m.remove key) := by
  obtain ⟨v, ht, hkeys, hledger⟩ := h
  have hget := m.get?_remove_eq_update key
  obtain ⟨s, w, hmade, hpasses, hs, hremoves⟩ :=
    remove_passes (R := WithValues m R) ht hkeys key ⟨m, rfl, rfl, hold⟩ ⟨_, hget, rfl, hnew⟩
  have hkeys' := hremoves.keysHold hkeys
  refine ⟨s, hmade, hpasses.imp fun _ => of_keysShow hledger, w, hs, hget ▸ hkeys', ?_⟩
  simp only [hremoves.ledger]
  exact hledger

theorem advance (h : Lies tidy t root m) (p : Position)
    (hroom : ∀ v topics, t.Shows root.path v → GroupHolds tidy
      (fun names => v (ledgerName :: digest (Utf8.encode p.topic) :: names)) topics
      (rowsIn m.offset? (digest (Utf8.encode p.topic))) → topics.length ≤ Decimal.maxU32)
    (hold : R m) (hnew : R (m.advance p)) :
    ∃ s, (planAdvance t root p).failure = none ∧
      t.Passes (planAdvance t root p).steps s (fun u => ∃ m', R m' ∧ Lies False u root m') ∧
      Lies tidy s root (m.advance p) := by
  obtain ⟨v, ht, hkeys, hledger⟩ := h
  have hoffset : (m.advance p).offset? = setRow m.offset? p := by
    funext topic partition
    rw [Contents.offset?_advance, setRow]
  obtain ⟨s, w, hmade, hpasses, hs, hledger', hsame⟩ :=
    advance_passes (R := WithRows m R) ht hledger p (fun topics => hroom v topics ht)
      ⟨m, rfl, rfl, hold⟩ ⟨_, hoffset, rfl, hnew⟩
  exact ⟨s, hmade, hpasses.imp fun _ => of_ledgerShows hkeys, w, hs, hkeys.beside hsame,
    hoffset ▸ hledger'⟩

end Lies

theorem holds_empty (hwell : t.WellFormed) (hempty : t.isEmptyDirectory root.path = true) :
    Holds t root {} :=
  ⟨.of_empty hwell hempty, Contents.fits_empty⟩

theorem Holds.put (h : Holds t root m) (key value : Bytes) (correlation : String)
    (hfits : (m.put key ⟨value, correlation⟩).Fits) :
    ∃ s, t.carryOut (planPut t root key value correlation) = (.ok (), s) ∧
      Holds s root (m.put key ⟨value, correlation⟩) := by
  have hroom : (m.keysIn (digest key)).card ≤ Decimal.maxU32 := by
    have hsub := Finset.card_le_card (m.keysIn_subset_put key ⟨value, correlation⟩ (digest key))
    have := hfits.keys (digest key)
    simp only [Decimal.maxU32]
    omega
  obtain ⟨s, hmade, hpasses, hs⟩ := h.lies.put key value correlation hroom
    (R := fun _ => True) trivial (fun _ _ => trivial) trivial
  exact ⟨s, hpasses.carryOut hmade, hs, hfits⟩

theorem Holds.remove (h : Holds t root m) (key : Bytes) :
    ∃ s, t.carryOut (planRemove t root key) = (.ok (), s) ∧ Holds s root (m.remove key) := by
  obtain ⟨s, hmade, hpasses, hs⟩ := h.lies.remove key (R := fun _ => True) trivial trivial
  exact ⟨s, hpasses.carryOut hmade, hs, h.fits.remove key⟩

theorem Holds.advance (h : Holds t root m) (p : Position) (hfits : (m.advance p).Fits) :
    ∃ s, t.carryOut (planAdvance t root p) = (.ok (), s) ∧ Holds s root (m.advance p) := by
  have hroom : ∀ v topics, t.Shows root.path v → GroupHolds True
      (fun names => v (ledgerName :: digest (Utf8.encode p.topic) :: names)) topics
      (rowsIn m.offset? (digest (Utf8.encode p.topic))) → topics.length ≤ Decimal.maxU32 := by
    intro v topics _ hgroup
    have hfew : ∀ topic partition,
        (rowsIn m.offset? (digest (Utf8.encode p.topic)) topic partition).isSome →
          topic ∈ (m.advance p).topicsIn (digest (Utf8.encode p.topic)) := by
      intro topic partition hrow
      rw [rowsIn] at hrow
      split at hrow
      · next hd =>
        rw [Contents.mem_topicsIn]
        refine ⟨⟨partition, ?_⟩, hd⟩
        rw [Contents.offset?_advance]
        split
        · rfl
        · exact hrow
      · cases hrow
    have hlength := hgroup.length_le hfew
    have := hfits.topics (digest (Utf8.encode p.topic))
    simp only [Decimal.maxU32]
    omega
  obtain ⟨s, hmade, hpasses, hs⟩ := h.lies.advance p hroom (R := fun _ => True) trivial trivial
  exact ⟨s, hpasses.carryOut hmade, hs, hfits⟩

end Disk

namespace StateStore

/-- A store together with the file tree holds given contents. -/
def Holds (s : StateStore) (files : FileTree) (m : Contents) : Prop :=
  match s.backing with
  | .dict d => d.Holds m
  | .disk root => Disk.Holds files root m
  | .database d => d.Holds m

/-- Where a store lies in the file tree, if it is kept there. -/
def root? (s : StateStore) : Option Location :=
  match s.backing with
  | .disk root => some root
  | _ => none

/-- A store has room for contents. -/
def Accepts (s : StateStore) (m : Contents) : Prop := s.root?.isSome → m.Fits

/-- A store nothing was put into, however it was opened. -/
def Fresh (s : StateStore) (files : FileTree) : Prop :=
  match s.backing with
  | .dict d => d = {}
  | .disk root => root.below = [] ∧ files.WellFormed ∧ files.isEmptyDirectory root.path = true
  | .database d => d.closed = false ∧ d.tables = {}

/-- An operation came out well and leaves given contents behind. -/
structure Leaves (s : StateStore) (m : Contents)
    (outcome : Except StateError Unit × StateStore × FileTree) : Prop where
  ok : outcome.1 = .ok ()
  holds : outcome.2.1.Holds outcome.2.2 m
  latch : outcome.2.1.latch = s.latch
  root : outcome.2.1.root? = s.root?

variable {s : StateStore} {files : FileTree} {m : Contents}

theorem Fresh.holds (h : s.Fresh files) : s.Holds files {} := by
  obtain ⟨backing, latch⟩ := s
  cases backing with
  | dict d =>
    obtain rfl : d = {} := h
    exact Dict.holds_empty
  | disk root => exact Disk.holds_empty h.2.1 h.2.2
  | database d => exact ⟨h.1, by rw [h.2]; exact Tables.holds_empty⟩

/-- A store that has just been opened is fresh, unless there is something in it. -/
theorem fresh_of_openStore {backend : Backend} {location password : Option String}
    {files' : FileTree} (hwell : files.WellFormed)
    (hopen : openStore files backend location password = (.ok s, files'))
    (hempty : match s.backing with
      | .dict _ => True
      | .disk root => files'.isEmptyDirectory root.path = true
      | .database d => d.tables = {}) : s.Fresh files' := by
  cases backend with
  | dict =>
    simp only [openStore, Prod.mk.injEq, Except.ok.injEq] at hopen
    rw [← hopen.1]
    rfl
  | disk =>
    simp only [openStore, openDisk, Disk.planOpen, Prod.mk.injEq] at hopen
    obtain ⟨hok, rfl⟩ := hopen
    obtain ⟨_, _, rfl⟩ := Decimal.map_eq_ok hok
    exact ⟨rfl, hwell.carryOut_planDirectory _, hempty⟩
  | sqlite =>
    cases location with
    | none =>
      simp only [openStore, openDatabase, Prod.mk.injEq, Except.ok.injEq] at hopen
      rw [← hopen.1]
      exact ⟨rfl, rfl⟩
    | some location =>
      simp only [openStore, openDatabase, Prod.mk.injEq] at hopen
      obtain ⟨d, hd, rfl⟩ := Decimal.map_eq_ok hopen.1
      exact ⟨Database.openAt_closed hd, hempty⟩

/-- A tree is opened by the text of its root alone. -/
theorem Fresh.root (h : s.Fresh files) : ∀ root, s.root? = some root → root.below = [] := by
  obtain ⟨backing, latch⟩ := s
  intro root hroot
  cases backing with
  | dict d => cases hroot
  | disk place =>
    obtain rfl : place = root := Option.some.inj hroot
    exact h.1
  | database d => cases hroot

namespace Holds

theorem put (h : s.Holds files m) (key value : Bytes) (correlation : String)
    (hroom : s.Accepts (m.put key ⟨value, correlation⟩)) :
    s.Leaves (m.put key ⟨value, correlation⟩) (s.put files key value correlation) := by
  obtain ⟨backing, latch⟩ := s
  cases backing with
  | dict d => exact ⟨rfl, Dict.Holds.put h ⟨key, value, correlation⟩, rfl, rfl⟩
  | disk root =>
    obtain ⟨t, hput, ht⟩ := Disk.Holds.put h key value correlation (hroom rfl)
    simp only [StateStore.put, hput]
    exact ⟨rfl, ht, rfl, rfl⟩
  | database d =>
    obtain ⟨d', t, hput, hd⟩ :=
      Database.Holds.change h files (f := (·.put key ⟨value, correlation⟩))
        (Tables.Holds.put h.tables key ⟨value, correlation⟩)
    simp only [StateStore.put, hput]
    exact ⟨rfl, hd, rfl, rfl⟩

theorem remove (h : s.Holds files m) (key : Bytes) :
    s.Leaves (m.remove key) (s.remove files key) := by
  obtain ⟨backing, latch⟩ := s
  cases backing with
  | dict d => exact ⟨rfl, Dict.Holds.remove h key, rfl, rfl⟩
  | disk root =>
    obtain ⟨t, hremove, ht⟩ := Disk.Holds.remove h key
    simp only [StateStore.remove, hremove]
    exact ⟨rfl, ht, rfl, rfl⟩
  | database d =>
    obtain ⟨d', t, hremove, hd⟩ :=
      Database.Holds.change h files (f := (·.remove key)) (Tables.Holds.remove h.tables key)
    simp only [StateStore.remove, hremove]
    exact ⟨rfl, hd, rfl, rfl⟩

theorem advance (h : s.Holds files m) (p : Position) (hroom : s.Accepts (m.advance p)) :
    s.Leaves (m.advance p) (s.advance files p) := by
  obtain ⟨backing, latch⟩ := s
  cases backing with
  | dict d => exact ⟨rfl, Dict.Holds.advance h p, rfl, rfl⟩
  | disk root =>
    obtain ⟨t, hadvance, ht⟩ := Disk.Holds.advance h p (hroom rfl)
    simp only [StateStore.advance, hadvance]
    exact ⟨rfl, ht, rfl, rfl⟩
  | database d =>
    obtain ⟨d', t, hadvance, hd⟩ :=
      Database.Holds.change h files (f := (·.advance p)) (Tables.Holds.advance h.tables p)
    simp only [StateStore.advance, hadvance]
    exact ⟨rfl, hd, rfl, rfl⟩

theorem get? (h : s.Holds files m) (key : Bytes) : s.get? files key = .ok (m.get? key) := by
  obtain ⟨backing, latch⟩ := s
  cases backing with
  | dict d => exact congrArg Except.ok (Dict.Holds.values h key)
  | disk root => exact h.lies.retrieve key
  | database d =>
    have hvalue := Tables.Holds.values h.tables key
    rw [← hvalue]
    exact Database.Holds.ask h (·.get? key)

theorem ledger (h : s.Holds files m) : ∃ rows, s.ledger files = .ok rows ∧ m.Lists rows := by
  obtain ⟨backing, latch⟩ := s
  cases backing with
  | dict d => exact ⟨_, rfl, Dict.Holds.ledger h⟩
  | disk root => exact h.lies.ledger h.fits.ranges
  | database d => exact ⟨_, Database.Holds.ask h _, Tables.Holds.ledger h.tables⟩

end Holds

end StateStore

end KeyedLog
