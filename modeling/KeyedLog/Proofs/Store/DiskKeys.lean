import KeyedLog.Proofs.FileTree.Stepping
import KeyedLog.Proofs.Store.Slot
import KeyedLog.Store.Disk

/-!
# The keys in a directory tree

What the directories of slots below the root of a store hold, and that storing, removing and
looking up a key goes by the key alone: keys that share a digest share a directory, but no slot.
While a slot is filled or cleared, every other key keeps its value.
-/
namespace KeyedLog.Disk

open FileTree (Plain)
open Function (update)

/-! ## Directories named after digests -/

def topName (d : String) : String := String.ofList (d.toList.take 3)

/-- The names that lead from the root to the directory of a digest. -/
def leafNames (d : String) : Path := [topName d, String.ofList (d.toList.drop 3)]

theorem leaf_path (root : Location) (key : Bytes) :
    (leaf root key).path = root.path ++ leafNames (digest key) := by
  simp only [leaf, Location.path_join, leafNames, topName, List.append_assoc, List.singleton_append]

theorem aboveLeaf_path (root : Location) (key : Bytes) :
    (aboveLeaf root key).path = root.path ++ [topName (digest key)] :=
  Location.path_join root _

theorem leafNames_inj {d e : String} (h : leafNames d = leafNames e) : d = e := by
  simp only [leafNames, topName, List.cons.injEq, and_true, String.ofList_inj] at h
  have hchars : d.toList = e.toList := by
    rw [← List.take_append_drop 3 d.toList, h.1, h.2, List.take_append_drop]
  exact String.toList_inj.mp hchars

/-- The name of the directory of the ledger. -/
def ledgerName : String := "topicPartitionOffsets"

theorem topName_ne (d : String) : topName d ≠ ledgerName := by
  intro h
  have hlength := congrArg (fun s => s.toList.length) h
  simp only [topName, String.toList_ofList, List.length_take] at hlength
  have : ledgerName.toList.length = 21 := by decide
  omega

theorem digest_length (key : Bytes) : (digest key).toList.length = 6 := by
  simp [digest, Hex.encode, Digest.lowBytes, Hex.pair]

theorem plain_leafNames (key : Bytes) : Plain (leafNames (digest key)) := by
  have hlength := digest_length key
  have hdots : "..".toList.length = 2 := by decide
  have hne : ∀ cs : List Char, cs.length = 3 → String.ofList cs ≠ ".." := by
    rintro cs hcs heq
    rw [← heq, String.toList_ofList] at hdots
    omega
  intro x hx
  simp only [leafNames, topName, List.mem_cons, List.not_mem_nil, or_false] at hx
  rcases hx with rfl | rfl
  · apply hne
    rw [List.length_take, hlength]
    rfl
  · apply hne
    rw [List.length_drop, hlength]

/-! ## The directories of slots -/

/-- What lies below the root of a store that holds the values of some keys. -/
structure KeysHold (v : Path → Option Node) (g : Bytes → Option StoredValue) : Prop where
  above : ∀ d, v [topName d] = none ∨ v [topName d] = some .directory
  leaves : ∀ d, v (leafNames d) = none ∨ v (leafNames d) = some .directory
  slots : ∀ d, Slot.Holds (fun x => v (leafNames d ++ [x]))
    (fun key => if digest key = d then g key else none)

variable {t : FileTree} {root : Location} {v w : Path → Option Node}
  {g : Bytes → Option StoredValue} {key : Bytes}

theorem prefix_leafNames {d : String} {other : Path} (h : other <+: leafNames d) :
    other = [] ∨ other = [topName d] ∨ other = leafNames d := by
  simp only [leafNames, List.prefix_cons_iff, List.prefix_nil] at h
  rcases h with rfl | ⟨_, rfl, rfl | ⟨_, rfl, rfl⟩⟩
  · exact .inl rfl
  · exact .inr (.inl rfl)
  · exact .inr (.inr rfl)

theorem not_prefix_below {d e x : String} : ¬leafNames e ++ [x] <+: leafNames d := fun h => by
  have hlength := h.length_le
  simp [leafNames] at hlength

theorem not_prefix_ledger {d : String} {rest : Path} : ¬ledgerName :: rest <+: leafNames d := by
  intro h
  rcases prefix_leafNames h with heq | heq | heq
  · cases heq
  · exact topName_ne d (List.cons.inj heq).1.symm
  · exact topName_ne d (List.cons.inj heq).1.symm

namespace KeysHold

/-- Only what lies in the directories of slots counts, as long as these are in nobody's way. -/
theorem of_same (h : KeysHold v g) (hslots : ∀ d x, w (leafNames d ++ [x]) = v (leafNames d ++ [x]))
    (habove : ∀ d, w [topName d] = none ∨ w [topName d] = some .directory)
    (hleaves : ∀ d, w (leafNames d) = none ∨ w (leafNames d) = some .directory) :
    KeysHold w g where
  above := habove
  leaves := hleaves
  slots := by
    intro d
    simp only [hslots]
    exact h.slots d

theorem clear (h : KeysHold v g) (hroot : v [] = some .directory) (d : String) :
    FileTree.Clear v (leafNames d) := by
  intro other hother
  rcases prefix_leafNames hother with rfl | rfl | rfl
  · exact .inr hroot
  · exact h.above d
  · exact h.leaves d

/-- Directories may come up on the way to those of slots. -/
theorem opened (h : KeysHold v g) {d : String} {other : Path} (hother : other <+: leafNames d) :
    KeysHold (FileTree.opened v other) g := by
  apply h.of_same
  · intro e x
    exact FileTree.opened_other fun hpre => not_prefix_below (hpre.trans hother)
  · intro e
    rw [FileTree.opened]
    split
    · exact .inr rfl
    · exact h.above e
  · intro e
    rw [FileTree.opened]
    split
    · exact .inr rfl
    · exact h.leaves e

/-- No slot lies in the ledger. -/
theorem beside (h : KeysHold v g)
    (hsame : ∀ names, ¬[ledgerName] <+: names → w names = v names) : KeysHold w g := by
  have hslot : ∀ {d : String} {rest : Path}, ¬[ledgerName] <+: topName d :: rest := by
    intro d rest hpre
    exact topName_ne d (List.cons_prefix_cons.mp hpre).1.symm
  apply h.of_same
  · intro d x
    exact hsame _ hslot
  · intro d
    rw [hsame _ hslot]
    exact h.above d
  · intro d
    rw [hsame (leafNames d) hslot]
    exact h.leaves d

/-- A key that no slot holds has no value. -/
theorem absent (h : KeysHold v g) (hnone : ∀ n,
    v (leafNames (digest key) ++ [Slot.name n Slot.keyExtension]) ≠ some (.file (.bytes key))) :
    g key = none := by
  cases hg : g key with
  | none => rfl
  | some stored =>
    obtain ⟨n, _, hkeeps⟩ := (h.slots (digest key)).held key stored (by rw [if_pos rfl, hg])
    exact absurd hkeeps.key (hnone n)

/-- Other files in the directory of one digest. -/
theorem replace (h : KeysHold v g) {d : String} {g' : Bytes → Option StoredValue}
    (hother : ∀ names, (∀ x, names ≠ leafNames d ++ [x]) → w names = v names)
    (hslots : Slot.Holds (fun x => w (leafNames d ++ [x]))
      (fun key => if digest key = d then g' key else none))
    (hg : ∀ key, digest key ≠ d → g' key = g key) : KeysHold w g' where
  above := by
    intro e
    rw [hother _ (by simp [leafNames])]
    exact h.above e
  leaves := by
    intro e
    rw [hother _ (by simp [leafNames])]
    exact h.leaves e
  slots := by
    intro e
    by_cases he : e = d
    · rw [he]
      exact hslots
    · have hfiles : ∀ x, w (leafNames e ++ [x]) = v (leafNames e ++ [x]) := by
        intro x
        apply hother
        intro y heq
        exact he (leafNames_inj (List.append_inj_left' heq rfl))
      have hkeys : (fun key => if digest key = e then g' key else none) =
          fun key => if digest key = e then g key else none := by
        funext key
        split
        · next hkey => exact hg key (by rw [hkey]; exact he)
        · rfl
      simp only [hfiles, hkeys]
      exact h.slots e

/-- Other files in the directory of a key, for another value of this key. -/
theorem update_key (h : KeysHold v g) {stored : Option StoredValue}
    (hother : ∀ names, (∀ x, names ≠ leafNames (digest key) ++ [x]) → w names = v names)
    (hslots : Slot.Holds (fun x => w (leafNames (digest key) ++ [x]))
      (update (fun k => if digest k = digest key then g k else none) key stored)) :
    KeysHold w (update g key stored) := by
  apply h.replace hother
  · convert hslots using 1
    funext k
    by_cases hk : k = key
    · rw [hk, Function.update_self, if_pos rfl, Function.update_self]
    · rw [Function.update_of_ne hk, Function.update_of_ne hk]
  · intro k hk
    rw [Function.update_of_ne]
    rintro rfl
    exact hk rfl

end KeysHold

/-! ## Looking up -/

theorem retrieveFrom_ok (ht : t.Shows root.path v) (h : KeysHold v g) {slots : List Nat}
    (hslots : ∀ n ∈ slots,
      (v (leafNames (digest key) ++ [Slot.name n Slot.keyExtension])).isSome)
    (hheld : ∀ n, v (leafNames (digest key) ++ [Slot.name n Slot.keyExtension]) =
      some (.file (.bytes key)) → n ∈ slots) :
    retrieveFrom t (leaf root key) key slots = .ok (g key) := by
  have hslot := h.slots (digest key)
  have hplain := plain_leafNames key
  have hpath := leaf_path root key
  induction slots with
  | nil =>
    have hg : g key = none := h.absent fun n hn => List.not_mem_nil (hheld n hn)
    rw [hg]
    rfl
  | cons n rest ih =>
    obtain ⟨_, held, stored, hg, hkeeps⟩ := hslot.keeps (hslots n List.mem_cons_self)
    have hread := Slot.readAt_ok ht hpath hplain Slot.dotless_key (by decide) hkeeps.key
    have hvalue := Slot.readAt_ok ht hpath hplain Slot.dotless_value (by decide) hkeeps.value
    have hcorrelation :=
      Slot.readAt_ok ht hpath hplain Slot.dotless_correlation (by decide) hkeeps.correlation
    have hexists : t.exists? (Slot.file (leaf root key) n Slot.valueExtension).path = true := by
      rw [Slot.file_path, hpath, List.append_assoc,
        ht.exists?_eq (Slot.plain_name hplain Slot.dotless_value (by decide)), hkeeps.value]
      rfl
    have hexists' :
        t.exists? (Slot.file (leaf root key) n Slot.correlationExtension).path = true := by
      rw [Slot.file_path, hpath, List.append_assoc,
        ht.exists?_eq (Slot.plain_name hplain Slot.dotless_correlation (by decide)),
        hkeeps.correlation]
      rfl
    rw [retrieveFrom, hread]
    by_cases hkey : held = key
    · subst hkey
      rw [if_pos rfl] at hg
      simp [hexists, hvalue, hexists', hcorrelation, hg, Except.map]
    · simp only [hkey, ne_eq, not_false_eq_true, true_or, if_true]
      apply ih (fun m hm => hslots m (List.mem_cons_of_mem _ hm))
      intro m hm
      cases List.mem_cons.mp (hheld m hm) with
      | inl heq =>
        subst heq
        rw [show v _ = _ from hkeeps.key] at hm
        simp [hkey] at hm
      | inr hrest => exact hrest

theorem retrieve_ok (ht : t.Shows root.path v) (h : KeysHold v g) (key : Bytes) :
    retrieve t root key = .ok (g key) := by
  have hslot := h.slots (digest key)
  have hplain := plain_leafNames key
  have hpath := leaf_path root key
  simp only [retrieve]
  rw [hpath, ht.isDirectory_eq hplain]
  cases h.leaves (digest key) with
  | inl hnone =>
    have hg : g key = none := h.absent fun n hn => by simp [ht.none_below hnone _] at hn
    simp [hnone, hg]
  | inr hdir =>
    obtain ⟨slots, hscan, _, hmem⟩ := Slot.scan_ok ht hpath hplain hdir hslot
    have hretrieve := retrieveFrom_ok ht h
      (fun n hn => (hmem n).mp hn) fun n hn => (hmem n).mpr (by rw [hn]; rfl)
    simp only [hdir, decide_true, if_true, hscan, hretrieve]

/-! ## The files of one slot -/

/-- What differs between two views is the files of one slot. -/
def SlotSet (v w : Path → Option Node) (dir : Path) (n : Nat)
    (key value correlation : Option Node) : Prop :=
  (∀ names, (∀ x, names ≠ dir ++ [x]) → w names = v names) ∧
    (fun x => w (dir ++ [x])) = Slot.setSlot (fun x => v (dir ++ [x])) n key value correlation

/-- A tree that shows a view but for the files of one slot, which are as a relation allows. -/
def SlotShows (path : Path) (v : Path → Option Node) (dir : Path) (n : Nat)
    (R : Option Node → Option Node → Option Node → Prop) (t : FileTree) : Prop :=
  ∃ w a b c, t.Shows path w ∧ SlotSet v w dir n a b c ∧ R a b c

section Slots

variable {path dir : Path} {l : Location} {n : Nat} {a b c : Option Node}
  {R : Option Node → Option Node → Option Node → Prop}

namespace SlotSet

theorem refl (v : Path → Option Node) (dir : Path) (n : Nat) :
    SlotSet v v dir n (v (dir ++ [Slot.name n Slot.keyExtension]))
      (v (dir ++ [Slot.name n Slot.valueExtension]))
      (v (dir ++ [Slot.name n Slot.correlationExtension])) :=
  ⟨fun _ _ => rfl, Slot.setSlot_self.symm⟩

theorem update (h : SlotSet v w dir n a b c) {x : String} {node a' b' c' : Option Node}
    (hset : Function.update (Slot.setSlot (fun x => v (dir ++ [x])) n a b c) x node =
      Slot.setSlot (fun x => v (dir ++ [x])) n a' b' c') :
    SlotSet v (Function.update w (dir ++ [x]) node) dir n a' b' c' := by
  refine ⟨fun names hnames => ?_, ?_⟩
  · rw [Function.update_of_ne (hnames x), h.1 names hnames]
  · rw [← hset, ← h.2]
    funext y
    simp only [Function.update_apply, List.append_cancel_left_eq, List.cons.injEq, and_true]

theorem keyFile (h : SlotSet v w dir n a b c) : w (dir ++ [Slot.name n Slot.keyExtension]) = a :=
  (congrFun h.2 _).trans Slot.setSlot_key

theorem valueFile (h : SlotSet v w dir n a b c) :
    w (dir ++ [Slot.name n Slot.valueExtension]) = b :=
  (congrFun h.2 _).trans Slot.setSlot_value

theorem correlationFile (h : SlotSet v w dir n a b c) :
    w (dir ++ [Slot.name n Slot.correlationExtension]) = c :=
  (congrFun h.2 _).trans Slot.setSlot_correlation

/-- Only the files of the slot may differ. -/
theorem same (h : SlotSet v w dir n a b c) {names : Path}
    (hnames : ∀ extension ∈ Slot.extensions, names ≠ dir ++ [Slot.name n extension]) :
    w names = v names := by
  by_cases hin : ∃ x, names = dir ++ [x]
  · obtain ⟨x, rfl⟩ := hin
    refine (congrFun h.2 x).trans (Slot.setSlot_other fun extension hext heq => ?_)
    exact hnames extension hext (by rw [heq])
  · exact h.1 names (not_exists.mp hin)

theorem directory (h : SlotSet v w dir n a b c) (hthere : v dir = some .directory) :
    w dir = some .directory := by
  rw [h.1 dir (by simp), hthere]

/-- The ledger is not among the files of a slot. -/
theorem ledger {d : String} (hset : SlotSet v w (leafNames d) n a b c) (rest : Path) :
    w (ledgerName :: rest) = v (ledgerName :: rest) :=
  hset.1 _ fun _ heq => topName_ne d (List.cons.inj heq).1.symm

end SlotSet

theorem write_ok (ht : t.Shows path v) (hl : l.path = path ++ dir) (hdir : Plain dir)
    (hthere : v dir = some .directory) {extension : String} (hext : Slot.Dotless extension)
    (hne : extension ≠ "") (hfree : v (dir ++ [Slot.name n extension]) ≠ some .directory)
    (data : Bytes) :
    ∃ s, t.apply (.write (Slot.file l n extension) data) = .ok s ∧
      s.Shows path (update v (dir ++ [Slot.name n extension]) (some (.file (.bytes data)))) := by
  apply ht.write
  · rw [Slot.file_path, hl, List.append_assoc]
  · exact Slot.plain_name hdir hext hne
  · simp
  · rw [List.dropLast_concat]
    exact hthere
  · exact hfree

theorem remove_ok (ht : t.Shows path v) (hl : l.path = path ++ dir) (hdir : Plain dir)
    {extension : String} (hext : Slot.Dotless extension) (hne : extension ≠ "") {data : Bytes}
    (hfile : v (dir ++ [Slot.name n extension]) = some (.file (.bytes data))) :
    ∃ s, t.apply (.remove (Slot.file l n extension)) = .ok s ∧
      s.Shows path (update v (dir ++ [Slot.name n extension]) none) := by
  apply ht.remove_file _ (Slot.plain_name hdir hext hne) hfile
  rw [Slot.file_path, hl, List.append_assoc]

/-- First the value is written, then the correlation id. -/
theorem overwrite_passes (ht : t.Shows path v) (hl : l.path = path ++ dir) (hdir : Plain dir)
    (hthere : v dir = some .directory) (hfiles : ∀ x, v (dir ++ [x]) ≠ some .directory)
    (hkey : v (dir ++ [Slot.name n Slot.keyExtension]) = a) (value : Bytes) (correlation : String)
    (hold : R a (v (dir ++ [Slot.name n Slot.valueExtension]))
      (v (dir ++ [Slot.name n Slot.correlationExtension])))
    (hmixed : R a (some (.file (.bytes value)))
      (v (dir ++ [Slot.name n Slot.correlationExtension])))
    (hnew : R a (some (.file (.bytes value)))
      (some (.file (.bytes (Utf8.encode correlation))))) :
    ∃ s w, t.Passes (overwrite l n value correlation) s (SlotShows path v dir n R) ∧
      s.Shows path w ∧ SlotSet v w dir n a (some (.file (.bytes value)))
        (some (.file (.bytes (Utf8.encode correlation)))) := by
  subst hkey
  have hfirst := SlotSet.refl v dir n
  obtain ⟨s, happly, hs⟩ := write_ok (n := n) ht hl hdir hthere Slot.dotless_value (by decide)
    (hfiles _) value
  have hsecond := hfirst.update (Slot.update_setSlot_value (some (.file (.bytes value))))
  have hfree : update v (dir ++ [Slot.name n Slot.valueExtension]) (some (.file (.bytes value)))
      (dir ++ [Slot.name n Slot.correlationExtension]) ≠ some .directory := by
    rw [hsecond.correlationFile]
    exact hfiles _
  obtain ⟨s', happly', hs'⟩ := write_ok hs hl hdir (hsecond.directory hthere)
    Slot.dotless_correlation (by decide) hfree (Utf8.encode correlation)
  have hthird := hsecond.update
    (Slot.update_setSlot_correlation (some (.file (.bytes (Utf8.encode correlation)))))
  exact ⟨s', _, .cons ⟨_, _, _, _, ht, hfirst, hold⟩ happly
    (.cons ⟨_, _, _, _, hs, hsecond, hmixed⟩ happly' (.nil ⟨_, _, _, _, hs', hthird, hnew⟩)),
    hs', hthird⟩

/-- The key file is written last. -/
theorem create_passes (ht : t.Shows path v) (hl : l.path = path ++ dir) (hdir : Plain dir)
    (hthere : v dir = some .directory) (hfiles : ∀ x, v (dir ++ [x]) ≠ some .directory)
    (hfree : v (dir ++ [Slot.name n Slot.keyExtension]) = none)
    (key value : Bytes) (correlation : String)
    (hlitter : ∀ b c, b ≠ some .directory → c ≠ some .directory → R none b c)
    (hnew : R (some (.file (.bytes key))) (some (.file (.bytes value)))
      (some (.file (.bytes (Utf8.encode correlation))))) :
    ∃ s w, t.Passes (create l n key value correlation) s (SlotShows path v dir n R) ∧
      s.Shows path w ∧ SlotSet v w dir n (some (.file (.bytes key))) (some (.file (.bytes value)))
        (some (.file (.bytes (Utf8.encode correlation)))) := by
  obtain ⟨s, w, hpasses, hs, hset⟩ := overwrite_passes ht hl hdir hthere hfiles hfree value
    correlation (hlitter _ _ (hfiles _) (hfiles _)) (hlitter _ _ (by simp) (hfiles _))
    (hlitter _ _ (by simp) (by simp))
  obtain ⟨s', happly, hs'⟩ := write_ok (n := n) hs hl hdir (hset.directory hthere)
    Slot.dotless_key (by decide) (by simp [hset.keyFile]) key
  have hlast := hset.update (Slot.update_setSlot_key (some (.file (.bytes key))))
  have hlitter' : R none (some (.file (.bytes value)))
      (some (.file (.bytes (Utf8.encode correlation)))) := hlitter _ _ (by simp) (by simp)
  exact ⟨s', _, hpasses.append (.cons ⟨_, _, _, _, hs, hset, hlitter'⟩ happly
    (.nil ⟨_, _, _, _, hs', hlast, hnew⟩)), hs', hlast⟩

/-- The key file goes first. -/
theorem removeFiles_passes {key : Bytes} {stored : StoredValue} (ht : t.Shows path v)
    (hl : l.path = path ++ dir) (hdir : Plain dir)
    (hkeeps : Slot.Keeps (fun x => v (dir ++ [x])) n key stored)
    (hold : R (some (.file (.bytes key))) (some (.file (.bytes stored.value)))
      (some (.file (.bytes (Utf8.encode stored.correlation)))))
    (hlitter : ∀ b c, b ≠ some .directory → c ≠ some .directory → R none b c) :
    ∃ s w, t.Passes [.remove (Slot.file l n Slot.keyExtension),
        .remove (Slot.file l n Slot.valueExtension),
        .remove (Slot.file l n Slot.correlationExtension)] s (SlotShows path v dir n R) ∧
      s.Shows path w ∧ SlotSet v w dir n none none none := by
  obtain ⟨hkey, hvalue, hcorrelation⟩ := hkeeps
  have hfirst := SlotSet.refl v dir n
  rw [hkey, hvalue, hcorrelation] at hfirst
  obtain ⟨s, happly, hs⟩ := remove_ok ht hl hdir Slot.dotless_key (by decide) hkey
  have hsecond := hfirst.update (Slot.update_setSlot_key none)
  obtain ⟨s', happly', hs'⟩ :=
    remove_ok hs hl hdir Slot.dotless_value (by decide) hsecond.valueFile
  have hthird := hsecond.update (Slot.update_setSlot_value none)
  obtain ⟨s'', happly'', hs''⟩ :=
    remove_ok hs' hl hdir Slot.dotless_correlation (by decide) hthird.correlationFile
  have hlast := hthird.update (Slot.update_setSlot_correlation none)
  exact ⟨s'', _, .cons ⟨_, _, _, _, ht, hfirst, hold⟩ happly
    (.cons ⟨_, _, _, _, hs, hsecond, hlitter _ _ (by simp) (by simp)⟩ happly'
    (.cons ⟨_, _, _, _, hs', hthird, hlitter _ _ (by simp) (by simp)⟩ happly''
    (.nil ⟨_, _, _, _, hs'', hlast, hlitter _ _ (by simp) (by simp)⟩))), hs'', hlast⟩

end Slots

/-! ## Storing -/

/-- A tree that shows the ledger of a view, and slots with the values that one of some functions
gives the keys. -/
def KeysShow (root : Location) (v : Path → Option Node) (R : (Bytes → Option StoredValue) → Prop)
    (t : FileTree) : Prop :=
  ∃ w g, t.Shows root.path w ∧ KeysHold w g ∧
    (∀ rest, w (ledgerName :: rest) = v (ledgerName :: rest)) ∧ R g

/-- The slot that is stored in: the one of the key, or a free one. -/
theorem KeysHold.set (h : KeysHold v g) {n : Nat} (hn : n ≤ Decimal.maxU32)
    (hslot : Slot.Suits (fun x => v (leafNames (digest key) ++ [x]))
      (fun k => if digest k = digest key then g k else none) n key)
    (stored : StoredValue)
    (hset : SlotSet v w (leafNames (digest key)) n (some (.file (.bytes key)))
      (some (.file (.bytes stored.value)))
      (some (.file (.bytes (Utf8.encode stored.correlation))))) :
    KeysHold w (update g key (some stored)) := by
  obtain ⟨hother, hfiles⟩ := hset
  have hnew := (h.slots (digest key)).set key hn hslot stored
  apply h.update_key hother
  rw [hfiles]
  exact hnew

/-- A slot without a key file. -/
theorem KeysHold.vacate (h : KeysHold v g) {n : Nat}
    (hslot : Slot.Suits (fun x => v (leafNames (digest key) ++ [x]))
      (fun k => if digest k = digest key then g k else none) n key)
    {value correlation : Option Node} (hv : value ≠ some .directory)
    (hc : correlation ≠ some .directory)
    (hset : SlotSet v w (leafNames (digest key)) n none value correlation) :
    KeysHold w (update g key none) := by
  obtain ⟨hother, hfiles⟩ := hset
  have hnew := (h.slots (digest key)).vacate hslot hv hc
  apply h.update_key hother
  rw [hfiles]
  exact hnew

/-- By the files of one slot, the keys have the values that one of some functions gives them. -/
def Yields (v : Path → Option Node) (d : String) (n : Nat)
    (R : (Bytes → Option StoredValue) → Prop) (a b c : Option Node) : Prop :=
  ∀ w, SlotSet v w (leafNames d) n a b c → ∃ g, KeysHold w g ∧ R g

section Yielding

variable {u : Path → Option Node} {R : (Bytes → Option StoredValue) → Prop} {n : Nat}

theorem KeysShow.of_slot {d : String}
    (h : SlotShows root.path v (leafNames d) n (Yields v d n R) t) : KeysShow root v R t := by
  obtain ⟨w, a, b, c, ht, hset, hyields⟩ := h
  obtain ⟨g, hw, hg⟩ := hyields w hset
  exact ⟨w, g, ht, hw, hset.ledger, hg⟩

theorem KeysShow.trans (h : KeysShow root u R t)
    (hledger : ∀ rest, u (ledgerName :: rest) = v (ledgerName :: rest)) : KeysShow root v R t := by
  obtain ⟨w, g, ht, hw, hsame, hg⟩ := h
  exact ⟨w, g, ht, hw, fun rest => (hsame rest).trans (hledger rest), hg⟩

variable (h : KeysHold v g) (hslot : Slot.Suits (fun x => v (leafNames (digest key) ++ [x]))
  (fun k => if digest k = digest key then g k else none) n key)

include h hslot

theorem KeysHold.yields_set (hn : n ≤ Decimal.maxU32) {stored : StoredValue}
    (hR : R (update g key (some stored))) : Yields v (digest key) n R (some (.file (.bytes key)))
      (some (.file (.bytes stored.value)))
      (some (.file (.bytes (Utf8.encode stored.correlation)))) :=
  fun _ hset => ⟨_, h.set hn hslot stored hset, hR⟩

theorem KeysHold.yields_vacate (hR : R (update g key none)) {b c : Option Node}
    (hb : b ≠ some .directory) (hc : c ≠ some .directory) :
    Yields v (digest key) n R none b c :=
  fun _ hset => ⟨_, h.vacate hslot hb hc hset, hR⟩

end Yielding

/-- Storing a value fills one slot, in a directory that may have been made for it. -/
structure Stores (v w : Path → Option Node) (g : Bytes → Option StoredValue) (key : Bytes)
    (stored : StoredValue) (n : Nat) : Prop where
  fits : n ≤ Decimal.maxU32
  takes : Slot.Takes (fun x => v (leafNames (digest key) ++ [x])) g n key
  files : SlotSet (FileTree.opened v (leafNames (digest key))) w (leafNames (digest key)) n
    (some (.file (.bytes key))) (some (.file (.bytes stored.value)))
    (some (.file (.bytes (Utf8.encode stored.correlation))))

theorem opened_slot (v : Path → Option Node) (d x : String) :
    FileTree.opened v (leafNames d) (leafNames d ++ [x]) = v (leafNames d ++ [x]) :=
  FileTree.opened_other not_prefix_below

theorem opened_ledger (v : Path → Option Node) (d : String) (rest : Path) :
    FileTree.opened v (leafNames d) (ledgerName :: rest) = v (ledgerName :: rest) :=
  FileTree.opened_other not_prefix_ledger

namespace Stores

variable {n : Nat} {stored : StoredValue}

theorem suits (hs : Stores v w g key stored n) :
    Slot.Suits (fun x => FileTree.opened v (leafNames (digest key)) (leafNames (digest key) ++ [x]))
      (fun k => if digest k = digest key then g k else none) n key := by
  simp only [opened_slot]
  exact hs.takes.suits.imp_right fun hfree => ⟨hfree.1, (if_pos rfl).trans hfree.2⟩

theorem keysHold (hs : Stores v w g key stored n) (h : KeysHold v g) :
    KeysHold w (update g key (some stored)) :=
  (h.opened (List.prefix_refl _)).set hs.fits hs.suits stored hs.files

theorem ledger (hs : Stores v w g key stored n) (rest : Path) :
    w (ledgerName :: rest) = v (ledgerName :: rest) :=
  (hs.files.ledger rest).trans (opened_ledger v _ rest)

end Stores

/-- What storing a value comes to: its slot is there already or it is free. -/
theorem planPut_cases (ht : t.Shows root.path v) (h : KeysHold v g) (key value : Bytes)
    (correlation : String)
    (hroom : ∃ live : Finset Bytes, live.card ≤ Decimal.maxU32 ∧
      ∀ k, digest k = digest key → (g k).isSome → k ∈ live)
    {P : FileTree → Prop} (hP : FileTree.OpensThrough root.path v (leafNames (digest key)) P) :
    ∃ s n steps, t.Passes steps s P ∧
      s.Shows root.path (FileTree.opened v (leafNames (digest key))) ∧ n ≤ Decimal.maxU32 ∧
      ((∃ stored, g key = some stored ∧
          Slot.Keeps (fun x => v (leafNames (digest key) ++ [x])) n key stored ∧
          planPut t root key value correlation =
            { steps := steps ++ overwrite (leaf root key) n value correlation }) ∨
        (g key = none ∧ v (leafNames (digest key) ++ [Slot.name n Slot.keyExtension]) = none ∧
          (∀ m < n, (v (leafNames (digest key) ++ [Slot.name m Slot.keyExtension])).isSome) ∧
          planPut t root key value correlation =
            { steps := steps ++ create (leaf root key) n key value correlation })) := by
  have hplain := plain_leafNames key
  have hpath := leaf_path root key
  obtain ⟨s, hmade, hpasses, hs⟩ := ht.planDirectory hpath hplain (h.clear ht.root _) hP
  have hopened := h.opened (List.prefix_refl (leafNames (digest key)))
  have hthere : FileTree.opened v (leafNames (digest key)) (leafNames (digest key)) =
      some .directory := FileTree.opened_above (List.prefix_refl _)
  have hslots := hopened.slots (digest key)
  obtain ⟨slots, hscan, hascending, hmem⟩ := Slot.scan_ok hs hpath hplain hthere hslots
  cases Slot.find_ok hs hpath hplain hslots key fun n hn => (hmem n).mp hn with
  | inl hfound =>
    obtain ⟨n, stored, hle, hstored, hkeeps, hfind⟩ := hfound
    rw [if_pos rfl] at hstored
    simp only [opened_slot] at hkeeps
    refine ⟨s, n, _, hpasses, hs, hle, .inl ⟨stored, hstored, hkeeps, ?_⟩⟩
    simp only [planPut, hmade, hpasses.performs, hscan, hfind]
  | inr hnone =>
    obtain ⟨hfind, hothers⟩ := hnone
    obtain ⟨live, hcard, hlive⟩ := hroom
    have hlength : slots.length ≤ live.card := by
      apply hslots.length_le hascending fun n hn => (hmem n).mp hn
      intro k hk
      split at hk
      · next hd => exact hlive k hd hk
      · cases hk
    have hle : Slot.lowestFree slots ≤ Decimal.maxU32 :=
      (Slot.lowestFree_le slots).trans (hlength.trans hcard)
    have hnew : g key = none :=
      hopened.absent fun n hn => hothers n ((hmem n).mpr (by rw [hn]; rfl)) hn
    simp only [opened_slot] at hmem
    have hfree : v (leafNames (digest key) ++
        [Slot.name (Slot.lowestFree slots) Slot.keyExtension]) = none := by
      have hnot := Slot.lowestFree_not_mem hascending
      rw [hmem, Option.not_isSome_iff_eq_none] at hnot
      exact hnot
    refine ⟨s, Slot.lowestFree slots, _, hpasses, hs, hle,
      .inr ⟨hnew, hfree, fun m hm => (hmem m).mp (Slot.mem_of_lt_lowestFree hm), ?_⟩⟩
    simp only [planPut, hmade, hpasses.performs, hscan, hfind]

/-- Storing a value: while it is under way, a key that had a value may have the new one with the
old correlation id. -/
theorem put_passes (ht : t.Shows root.path v) (h : KeysHold v g) (value : Bytes)
    (correlation : String)
    (hroom : ∃ live : Finset Bytes, live.card ≤ Decimal.maxU32 ∧
      ∀ k, digest k = digest key → (g k).isSome → k ∈ live)
    {R : (Bytes → Option StoredValue) → Prop} (hold : R g)
    (hmixed : ∀ stored, g key = some stored →
      R (update g key (some ⟨value, stored.correlation⟩)))
    (hnew : R (update g key (some ⟨value, correlation⟩))) :
    ∃ s w n, (planPut t root key value correlation).failure = none ∧
      t.Passes (planPut t root key value correlation).steps s (KeysShow root v R) ∧
      s.Shows root.path w ∧ Stores v w g key ⟨value, correlation⟩ n := by
  have hplain := plain_leafNames key
  have hpath := leaf_path root key
  have hP : FileTree.OpensThrough root.path v (leafNames (digest key)) (KeysShow root v R) := by
    intro other s hother hs
    exact ⟨_, g, hs, h.opened hother, fun rest => FileTree.opened_other fun hpre =>
      not_prefix_ledger (hpre.trans hother), hold⟩
  obtain ⟨s, n, steps, hpasses, hs, hn, hcases⟩ :=
    planPut_cases ht h key value correlation hroom hP
  have hu := h.opened (List.prefix_refl (leafNames (digest key)))
  have hthere : FileTree.opened v (leafNames (digest key)) (leafNames (digest key)) =
      some .directory := FileTree.opened_above (List.prefix_refl _)
  have hfiles := (hu.slots (digest key)).files
  have hshow : ∀ s', SlotShows root.path (FileTree.opened v (leafNames (digest key)))
      (leafNames (digest key)) n (Yields (FileTree.opened v (leafNames (digest key))) (digest key)
        n R) s' → KeysShow root v R s' := fun s' h =>
    (KeysShow.of_slot h).trans (opened_ledger v _)
  rcases hcases with ⟨stored, hstored, hkeeps, hplan⟩ | ⟨habsent, hfree, hlowest, hplan⟩
  · have hopened := hkeeps
    simp only [← opened_slot v] at hopened
    have hsuits : Slot.Suits
        (fun x => FileTree.opened v (leafNames (digest key)) (leafNames (digest key) ++ [x]))
        (fun k => if digest k = digest key then g k else none) n key := .inl hopened.key
    have hyields {held : StoredValue} (hR : R (update g key (some held))) :=
      hu.yields_set hsuits hn hR
    have hsame : update g key (some stored) = g := hstored ▸ Function.update_eq_self key g
    obtain ⟨s', w, hpasses', hs', hset⟩ := overwrite_passes hs hpath hplain hthere hfiles
      hopened.key value correlation
      (by
        rw [hopened.value, hopened.correlation]
        exact hyields (hsame.symm ▸ hold))
      (by
        rw [hopened.correlation]
        exact hyields (hmixed stored hstored))
      (hyields hnew)
    rw [hplan]
    exact ⟨s', w, n, rfl, hpasses.append (hpasses'.imp hshow), hs', hn, .held hstored hkeeps, hset⟩
  · have hopened := hfree
    rw [← opened_slot v] at hopened
    have hsuits : Slot.Suits
        (fun x => FileTree.opened v (leafNames (digest key)) (leafNames (digest key) ++ [x]))
        (fun k => if digest k = digest key then g k else none) n key :=
      .inr ⟨hopened, (if_pos rfl).trans habsent⟩
    have hsame : update g key none = g := habsent ▸ Function.update_eq_self key g
    obtain ⟨s', w, hpasses', hs', hset⟩ := create_passes hs hpath hplain hthere hfiles hopened key
      value correlation (fun _ _ => hu.yields_vacate hsuits (hsame.symm ▸ hold))
      (hu.yields_set hsuits hn hnew)
    rw [hplan]
    exact ⟨s', w, n, rfl, hpasses.append (hpasses'.imp hshow), hs', hn,
      .lowest habsent hfree hlowest, hset⟩

/-! ## Removing -/

/-- Directories of slots that are empty may go. -/
theorem KeysHold.pruned (h : KeysHold v g) {names : Path} (hnames : names.length ≤ 2)
    (hw : FileTree.Pruned v names w) : KeysHold w g := by
  cases hw with
  | kept _ hw => rwa [hw]
  | empty _ hw =>
    rw [hw]
    apply h.of_same
    · intro d x
      rw [Function.update_of_ne]
      rintro rfl
      simp [leafNames] at hnames
    · intro d
      rw [Function.update_apply]
      split
      · exact .inl rfl
      · exact h.above d
    · intro d
      rw [Function.update_apply]
      split
      · exact .inl rfl
      · exact h.leaves d

/-- The ledger is in none of the directories that may go. -/
theorem ledger_of_pruned {d : String} {names : Path} (hnames : names <+: leafNames d)
    (hw : FileTree.Pruned v names w) (rest : Path) :
    w (ledgerName :: rest) = v (ledgerName :: rest) := by
  cases hw with
  | kept _ hw => rw [hw]
  | empty _ hw =>
    rw [hw, Function.update_of_ne]
    rintro rfl
    exact not_prefix_ledger hnames

/-- The directories of a digest, without those that are empty. -/
inductive Prunes (v : Path → Option Node) (d : String) (w : Path → Option Node) : Prop where
  | intro {u} : FileTree.Pruned v (leafNames d) u → FileTree.Pruned u [topName d] w → Prunes v d w

/-- The directories a removal may leave empty, the lower one first. -/
theorem prunes_pass (ht : t.Shows root.path v) (h : KeysHold v g) (key : Bytes)
    {R : (Bytes → Option StoredValue) → Prop} (hR : R g) :
    ∃ s w, t.Passes [.prune (leaf root key), .prune (aboveLeaf root key)] s (KeysShow root v R) ∧
      s.Shows root.path w ∧ Prunes v (digest key) w := by
  have hplain := plain_leafNames key
  have htop : Plain [topName (digest key)] := by
    intro x hx
    apply hplain x
    rw [List.mem_singleton.mp hx]
    exact List.mem_cons_self
  have htopmost : [topName (digest key)] <+: leafNames (digest key) := ⟨_, rfl⟩
  obtain ⟨s, w, happly, hs, hw⟩ := ht.prune (leaf_path root key) hplain (by simp [leafNames])
    (h.leaves _)
  have h' := h.pruned (by simp [leafNames]) hw
  have hledger := ledger_of_pruned (List.prefix_refl _) hw
  obtain ⟨s', w', happly', hs', hw'⟩ := hs.prune (aboveLeaf_path root key) htop (by simp)
    (h'.above _)
  have h'' := h'.pruned (by simp) hw'
  have hledger' : ∀ rest, w' (ledgerName :: rest) = v (ledgerName :: rest) := fun rest =>
    (ledger_of_pruned htopmost hw' rest).trans (hledger rest)
  exact ⟨s', w', .cons ⟨v, g, ht, h, fun _ => rfl, hR⟩ happly
    (.cons ⟨w, g, hs, h', hledger, hR⟩ happly' (.nil ⟨w', g, hs', h'', hledger', hR⟩)),
    hs', .intro hw hw'⟩

theorem KeysHold.prunes (h : KeysHold v g) {d : String} (hw : Prunes v d w) : KeysHold w g := by
  obtain ⟨hleaf, htop⟩ := hw
  exact (h.pruned (by simp [leafNames]) hleaf).pruned (by simp) htop

theorem Prunes.ledger {d : String} (hw : Prunes v d w) (rest : Path) :
    w (ledgerName :: rest) = v (ledgerName :: rest) := by
  obtain ⟨hleaf, htop⟩ := hw
  exact (ledger_of_pruned ⟨_, rfl⟩ htop rest).trans
    (ledger_of_pruned (List.prefix_refl _) hleaf rest)

/-- Removing a key clears its slot and takes away the directories that are left empty. -/
inductive Removes (v w : Path → Option Node) (g : Bytes → Option StoredValue) (key : Bytes) :
    Prop where
  | absent : g key = none → w = v → Removes v w g key
  | cleared {n stored u} : n ≤ Decimal.maxU32 → g key = some stored →
      Slot.Keeps (fun x => v (leafNames (digest key) ++ [x])) n key stored →
      SlotSet v u (leafNames (digest key)) n none none none → Prunes u (digest key) w →
      Removes v w g key

namespace Removes

theorem keysHold (hr : Removes v w g key) (h : KeysHold v g) : KeysHold w (update g key none) := by
  cases hr with
  | absent hnone hw =>
    rw [hw, ← hnone, Function.update_eq_self]
    exact h
  | cleared _ _ hkeeps hset hpruned =>
    exact (h.vacate (.inl hkeeps.key) (by simp) (by simp) hset).prunes hpruned

theorem ledger (hr : Removes v w g key) (rest : Path) :
    w (ledgerName :: rest) = v (ledgerName :: rest) := by
  cases hr with
  | absent _ hw => rw [hw]
  | cleared _ _ _ hset hpruned => exact (hpruned.ledger rest).trans (hset.ledger rest)

end Removes

/-- What removing a key comes to: nothing, or its slot is cleared. -/
theorem planRemove_cases (ht : t.Shows root.path v) (h : KeysHold v g) (key : Bytes) :
    (g key = none ∧ planRemove t root key = {}) ∨
      ∃ n stored, n ≤ Decimal.maxU32 ∧ g key = some stored ∧
        Slot.Keeps (fun x => v (leafNames (digest key) ++ [x])) n key stored ∧
        planRemove t root key = { steps := clear root key n } := by
  have hplain := plain_leafNames key
  have hpath := leaf_path root key
  have hslots := h.slots (digest key)
  have hdirectory := ht.isDirectory_eq hplain
  rw [← hpath] at hdirectory
  cases h.leaves (digest key) with
  | inl hnone =>
    have hg : g key = none := h.absent fun n hn => by
      rw [ht.none_below hnone] at hn
      cases hn
    exact .inl ⟨hg, by simp [planRemove, hdirectory, hnone]⟩
  | inr hdir =>
    obtain ⟨slots, hscan, _, hmem⟩ := Slot.scan_ok ht hpath hplain hdir hslots
    cases Slot.find_ok ht hpath hplain hslots key fun n hn => (hmem n).mp hn with
    | inl hfound =>
      obtain ⟨n, stored, hle, hstored, hkeeps, hfind⟩ := hfound
      rw [if_pos rfl] at hstored
      refine .inr ⟨n, stored, hle, hstored, hkeeps, ?_⟩
      simp only [planRemove, hdirectory, hdir, decide_true, if_true, hscan, hfind]
    | inr hnone =>
      obtain ⟨hfind, hothers⟩ := hnone
      have hg : g key = none :=
        h.absent fun n hn => hothers n ((hmem n).mpr (by rw [hn]; rfl)) hn
      exact .inl ⟨hg, by simp [planRemove, hdirectory, hdir, hscan, hfind]⟩

theorem remove_passes (ht : t.Shows root.path v) (h : KeysHold v g) (key : Bytes)
    {R : (Bytes → Option StoredValue) → Prop} (hold : R g) (hnew : R (update g key none)) :
    ∃ s w, (planRemove t root key).failure = none ∧
      t.Passes (planRemove t root key).steps s (KeysShow root v R) ∧
      s.Shows root.path w ∧ Removes v w g key := by
  rcases planRemove_cases ht h key with ⟨habsent, hplan⟩ | ⟨n, stored, hn, hstored, hkeeps, hplan⟩
  · rw [hplan]
    exact ⟨t, v, rfl, .nil ⟨v, g, ht, h, fun _ => rfl, hold⟩, ht, .absent habsent rfl⟩
  · have hsuits : Slot.Suits (fun x => v (leafNames (digest key) ++ [x]))
        (fun k => if digest k = digest key then g k else none) n key := .inl hkeeps.key
    have hsame : update g key (some stored) = g := hstored ▸ Function.update_eq_self key g
    obtain ⟨s, w, hpasses, hs, hset⟩ := removeFiles_passes ht (leaf_path root key)
      (plain_leafNames key) hkeeps (h.yields_set hsuits hn (hsame.symm ▸ hold))
      fun _ _ => h.yields_vacate hsuits hnew
    have hw := h.vacate hsuits (by simp) (by simp) hset
    obtain ⟨s', w', hpasses', hs', hpruned⟩ := prunes_pass hs hw key hnew
    rw [hplan]
    exact ⟨s', w', rfl, (hpasses.imp fun _ => KeysShow.of_slot).append
      (hpasses'.imp fun _ hshow => hshow.trans hset.ledger), hs',
      .cleared hn hstored hkeeps hset hpruned⟩

end KeyedLog.Disk
