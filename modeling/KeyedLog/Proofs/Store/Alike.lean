import KeyedLog.Proofs.FileTree.Sparing
import KeyedLog.Proofs.Store.DiskLedger

/-!
# Trees that read alike

Where two trees show the same below a root, the slots and the ledger there are read with the same
result, whatever is found and whatever fails.
-/
namespace KeyedLog

open FileTree (Plain Apart Spares)

section

variable {t s : FileTree} {path : Path} {v w : Path → Option Node} {names : Path} {l : Location}

theorem FileTree.Shows.isDirectory_same (ht : t.Shows path v) (hs : s.Shows path w)
    (hl : l.path = path ++ names) (hnames : Plain names) (h : w names = v names) :
    s.isDirectory l.path = t.isDirectory l.path := by
  rw [hl, ht.isDirectory_eq hnames, hs.isDirectory_eq hnames, h]

theorem FileTree.Shows.exists?_same (ht : t.Shows path v) (hs : s.Shows path w)
    (hl : l.path = path ++ names) (hnames : Plain names) (h : w names = v names) :
    s.exists? l.path = t.exists? l.path := by
  rw [hl, ht.exists?_eq hnames, hs.exists?_eq hnames, h]

theorem FileTree.Shows.readAt_same (ht : t.Shows path v) (hs : s.Shows path w)
    (hl : l.path = path ++ names) (hnames : Plain names) (h : w names = v names)
    (hthere : (v names).isSome) : Slot.readAt s l = Slot.readAt t l := by
  obtain ⟨node, hnode⟩ := Option.isSome_iff_exists.mp hthere
  rw [Slot.readAt, Slot.readAt, FileTree.read, FileTree.read, hl, ht.lookup_some hnames hnode,
    hs.lookup_some hnames (h.trans hnode)]

end

/-! ## Slots -/

namespace Slot

/-- What can be read is there. -/
theorem exists?_of_readAt {t : FileTree} {l : Location} {data : Bytes}
    (h : readAt t l = .ok data) : t.exists? l.path = true := by
  rw [readAt, FileTree.read] at h
  rw [FileTree.exists?]
  split at h
  · next hlookup => rw [hlookup]
  · cases h
  · cases h

/-- In search of a key, a slot of two trees reads alike. -/
structure Alike (t s : FileTree) (l : Location) (key : Bytes) (n : Nat) : Prop where
  holder : readAt s (file l n keyExtension) = readAt t (file l n keyExtension)
  files : readAt t (file l n keyExtension) = .ok key → ∀ extension ∈ extensions,
    s.exists? (file l n extension).path = t.exists? (file l n extension).path ∧
      (t.exists? (file l n extension).path = true →
        readAt s (file l n extension) = readAt t (file l n extension))

variable {t s : FileTree} {path dir : Path} {v w : Path → Option Node} {l : Location} {key : Bytes}
  {n : Nat}

/-- A slot with the same files. -/
theorem alike_of_same (ht : t.Shows path v) (hs : s.Shows path w) (hl : l.path = path ++ dir)
    (hdir : Plain dir) (hsame : ∀ extension ∈ extensions,
      w (dir ++ [name n extension]) = v (dir ++ [name n extension]))
    (hkey : (v (dir ++ [name n keyExtension])).isSome) : Alike t s l key n := by
  have hfile : ∀ extension, (file l n extension).path = path ++ (dir ++ [name n extension]) := by
    intro extension
    rw [file_path, hl, List.append_assoc]
  have hplain : ∀ extension ∈ extensions, Plain (dir ++ [name n extension]) :=
    fun extension hext => plain_name hdir (dotless_of_mem hext) (ne_empty_of_mem hext)
  have hmem : keyExtension ∈ extensions := by simp [extensions]
  refine ⟨ht.readAt_same hs (hfile _) (hplain _ hmem) (hsame _ hmem) hkey, ?_⟩
  intro _ extension hext
  refine ⟨ht.exists?_same hs (hfile _) (hplain _ hext) (hsame _ hext), fun hthere => ?_⟩
  rw [hfile, ht.exists?_eq (hplain _ hext)] at hthere
  exact ht.readAt_same hs (hfile _) (hplain _ hext) (hsame _ hext) hthere

end Slot

namespace Disk

variable {t s : FileTree} {l : Location} {key : Bytes} {slots : List Nat} {n : Nat}

theorem retrieveFrom_congr (h : ∀ n ∈ slots, Slot.Alike t s l key n) :
    retrieveFrom s l key slots = retrieveFrom t l key slots := by
  induction slots with
  | nil => rfl
  | cons n rest ih =>
    have hrest := ih fun m hm => h m (List.mem_cons_of_mem _ hm)
    obtain ⟨hkey, hfiles⟩ := h n List.mem_cons_self
    rw [retrieveFrom, retrieveFrom, hkey]
    cases hread : Slot.readAt t (Slot.file l n Slot.keyExtension) with
    | error e => rfl
    | ok held =>
      by_cases hheld : held = key
      · subst hheld
        obtain ⟨hvalue, hvalueRead⟩ := hfiles hread Slot.valueExtension (by simp [Slot.extensions])
        obtain ⟨hcorrelation, hcorrelationRead⟩ :=
          hfiles hread Slot.correlationExtension (by simp [Slot.extensions])
        simp only [hvalue, hcorrelation, hrest]
        split
        · rfl
        · next hthere =>
          simp only [ne_eq, not_true_eq_false, false_or, not_not] at hthere
          rw [hvalueRead hthere]
          split
          · rfl
          · split
            · next hthere' => rw [hcorrelationRead hthere']
            · rfl
      · simp only [ne_eq, hheld, not_false_eq_true, true_or, if_true, hrest]

/-- A slot with another key is passed over. -/
theorem retrieveFrom_skip (h : Slot.Other t l key n) (before after : List Nat) :
    retrieveFrom t l key (before ++ n :: after) = retrieveFrom t l key (before ++ after) := by
  induction before with
  | nil =>
    obtain ⟨held, hread, hne⟩ := h
    rw [List.nil_append, List.nil_append, retrieveFrom, hread]
    simp only [ne_eq, hne, not_false_eq_true, true_or, if_true]
  | cons m before ih =>
    rw [List.cons_append, List.cons_append, retrieveFrom, retrieveFrom, ih]

/-- The value is taken from the slot of the key. -/
theorem retrieveFrom_hit {value bytes : Bytes} {before : List Nat}
    (hbefore : ∀ m ∈ before, Slot.Other t l key m)
    (hkey : Slot.readAt t (Slot.file l n Slot.keyExtension) = .ok key)
    (hvalue : Slot.readAt t (Slot.file l n Slot.valueExtension) = .ok value)
    (hcorrelation : Slot.readAt t (Slot.file l n Slot.correlationExtension) = .ok bytes)
    (after : List Nat) : retrieveFrom t l key (before ++ n :: after) =
      .ok (some ⟨value, Utf8.lossy bytes⟩) := by
  induction before with
  | nil =>
    rw [List.nil_append, retrieveFrom, hkey]
    simp only [ne_eq, not_true_eq_false, Slot.exists?_of_readAt hvalue,
      Slot.exists?_of_readAt hcorrelation, or_self, if_false, hvalue, if_true, hcorrelation,
      Except.map]
  | cons m before ih =>
    have hskip := retrieveFrom_skip (hbefore m List.mem_cons_self) [] (before ++ n :: after)
    rw [List.cons_append, ← List.nil_append (m :: _), hskip]
    exact ih fun k hk => hbefore k (List.mem_cons_of_mem _ hk)

/-! ## The ledger -/

theorem collect_congr {α : Type} {f g : α → Except StateError (List Position)} {xs : List α}
    (h : ∀ x ∈ xs, f x = g x) : collect f xs = collect g xs := by
  induction xs with
  | nil => rfl
  | cons x rest ih =>
    rw [collect, collect, h x List.mem_cons_self, ih fun y hy => h y (List.mem_cons_of_mem _ hy)]

/-- A directory that is listed is there. -/
theorem of_subdirectories {path place names : Path} (ht : t.Rooted path place)
    (hplain : ∀ names, (t.node? (place ++ names)).isSome → Plain names)
    (hl : l.path = path ++ names) (hnames : Plain names) {dirs : List Location} {d : Location}
    (h : subdirectories t l = .ok dirs) (hd : d ∈ dirs) :
    ∃ x, d.path = path ++ (names ++ [x]) ∧ t.node? (place ++ (names ++ [x])) = some .directory := by
  obtain ⟨x, listed, rfl, hlist, hx, hdirectory⟩ := mem_subdirectories h hd
  rw [hl] at hlist
  obtain ⟨-, rfl⟩ := ht.of_list hnames hlist
  rw [ht.wellFormed.mem_namesAt, List.append_assoc] at hx
  refine ⟨x, join_path hl x, ?_⟩
  rw [join_path hl, FileTree.Shows.isDirectory_eq ⟨place, ht.shows⟩ (hplain _ hx)] at hdirectory
  exact of_decide_eq_true hdirectory

section Spared

variable {path place dir names : Path} (ht : t.Rooted path place)
  (hplain : ∀ names, (t.node? (place ++ names)).isSome → Plain names)
  (hspares : Spares path place dir t s) (hl : l.path = path ++ names) (hapart : Apart dir names)

include ht hspares hl hapart

theorem isDirectory_spared (hnames : Plain names) : s.isDirectory l.path = t.isDirectory l.path :=
  FileTree.Shows.isDirectory_same ⟨place, ht.shows⟩ ⟨place, hspares.rooted.shows⟩ hl hnames
    (hspares.found names hapart)

theorem exists?_spared (hnames : Plain names) : s.exists? l.path = t.exists? l.path :=
  FileTree.Shows.exists?_same ⟨place, ht.shows⟩ ⟨place, hspares.rooted.shows⟩ hl hnames
    (hspares.found names hapart)

theorem readAt_spared (hnames : Plain names) (hthere : (t.node? (place ++ names)).isSome) :
    Slot.readAt s l = Slot.readAt t l :=
  FileTree.Shows.readAt_same ⟨place, ht.shows⟩ ⟨place, hspares.rooted.shows⟩ hl hnames
    (hspares.found names hapart) hthere

/-- A directory lists the same names. -/
theorem list_spared (hnames : Plain names) (hdir : t.node? (place ++ names) = some .directory) :
    ∃ listed, t.list l.path = .ok listed ∧ s.list l.path = .ok listed ∧
      ∀ x ∈ listed, (t.node? (place ++ (names ++ [x]))).isSome := by
  obtain ⟨listed, hlist, -, hmem⟩ := FileTree.Shows.list_eq ⟨place, ht.shows⟩ hnames hdir
  obtain ⟨listed', hlist', -⟩ := FileTree.Shows.list_eq ⟨place, hspares.rooted.shows⟩ hnames
    ((hspares.found names hapart).trans hdir)
  have hsame : listed' = listed := by
    rw [(ht.of_list hnames hlist).2, (hspares.rooted.of_list hnames hlist').2,
      hspares.listed names hapart]
  rw [hl]
  exact ⟨listed, hlist, hsame ▸ hlist', fun x hx => (hmem x).mp hx⟩

include hplain

theorem subdirectories_spared (hdir : t.node? (place ++ names) = some .directory) :
    subdirectories s l = subdirectories t l := by
  have hnames := hplain names (by rw [hdir]; rfl)
  obtain ⟨listed, hlist, hlist', hmem⟩ := list_spared ht hspares hl hapart hnames hdir
  have hfilter : listed.filter (fun x => s.isDirectory (l.join x).path) =
      listed.filter (fun x => t.isDirectory (l.join x).path) := by
    apply List.filter_congr
    intro x hx
    exact isDirectory_spared ht hspares (join_path hl x) (hapart.below [x]) (hplain _ (hmem x hx))
  simp only [subdirectories, hlist, hlist', hfilter]

theorem readRow_spared (topic : String) {x : String}
    (hx : (t.node? (place ++ (names ++ [x]))).isSome) :
    readRow s topic l x = readRow t topic l x := by
  have hread := readAt_spared ht hspares (join_path hl x) (hapart.below [x]) (hplain _ hx) hx
  simp only [readRow, hread]

theorem readTopic_spared (hdir : t.node? (place ++ names) = some .directory) :
    readTopic s l = readTopic t l := by
  have hnames := hplain names (by rw [hdir]; rfl)
  have hname : Plain (names ++ [topicFileName]) := plain_append hnames (by decide)
  have hpath := join_path hl topicFileName
  have hexists := exists?_spared ht hspares hpath (hapart.below _) hname
  obtain ⟨listed, hlist, hlist', hmem⟩ := list_spared ht hspares hl hapart hnames hdir
  have hrows : ∀ topic, collect (fun x => (readRow s topic l x).map Option.toList) listed =
      collect (fun x => (readRow t topic l x).map Option.toList) listed := by
    intro topic
    apply collect_congr
    intro x hx
    rw [readRow_spared ht hplain hspares hl hapart topic (hmem x hx)]
  simp only [readTopic, topicNameFile_eq, hexists, hlist, hlist', hrows]
  split
  · next hthere =>
    rw [hpath, FileTree.Shows.exists?_eq ⟨place, ht.shows⟩ hname] at hthere
    rw [readAt_spared ht hspares hpath (hapart.below _) hname hthere]
  · rfl

theorem readGroup_spared (hdir : t.node? (place ++ names) = some .directory) :
    readGroup s l = readGroup t l := by
  have hnames := hplain names (by rw [hdir]; rfl)
  rw [readGroup, readGroup, subdirectories_spared ht hplain hspares hl hapart hdir]
  split
  · rfl
  · next dirs hdirs =>
    apply collect_congr
    intro d hd
    obtain ⟨x, hpath, hdir'⟩ := of_subdirectories ht hplain hl hnames hdirs hd
    exact readTopic_spared ht hplain hspares hpath (hapart.below [x]) hdir'

end Spared

/-- The ledger reads the same in a tree that differs elsewhere. -/
theorem ledger_spared {root : Location} {place dir : Path} (ht : t.Rooted root.path place)
    (hplain : ∀ names, (t.node? (place ++ names)).isSome → Plain names)
    (hspares : Spares root.path place dir t s) (hapart : Apart dir [ledgerName]) :
    ledger s root = ledger t root := by
  have hl := ledgerRoot_path root
  have hdirectory := isDirectory_spared ht hspares hl hapart plain_ledger
  simp only [ledger, hdirectory]
  split
  · next hthere =>
    rw [hl, FileTree.Shows.isDirectory_eq ⟨place, ht.shows⟩ plain_ledger] at hthere
    have hdir := of_decide_eq_true hthere
    rw [subdirectories_spared ht hplain hspares hl hapart hdir]
    split
    · rfl
    · next groups hgroups =>
      have hcollect : collect (readGroup s) groups = collect (readGroup t) groups := by
        apply collect_congr
        intro d hd
        obtain ⟨x, hpath, hdir'⟩ := of_subdirectories ht hplain hl plain_ledger hgroups hd
        exact readGroup_spared ht hplain hspares hpath (hapart.below [x]) hdir'
      rw [hcollect]
  · rfl

/-- The keys of another digest read the same in a tree that differs elsewhere. -/
theorem retrieve_spared {root : Location} {place dir : Path} (ht : t.Rooted root.path place)
    (hspares : Spares root.path place dir t s) (hapart : Apart dir (leafNames (digest key))) :
    retrieve s root key = retrieve t root key := by
  have hl := leaf_path root key
  have hnames := plain_leafNames key
  have hdirectory := isDirectory_spared ht hspares hl hapart hnames
  simp only [retrieve, hdirectory]
  split
  · next hthere =>
    rw [hl, FileTree.Shows.isDirectory_eq ⟨place, ht.shows⟩ hnames] at hthere
    have hdir := of_decide_eq_true hthere
    obtain ⟨listed, hlist, hlist', -⟩ := list_spared ht hspares hl hapart hnames hdir
    have hscan : Slot.scan s (leaf root key) = Slot.scan t (leaf root key) := by
      rw [Slot.scan, Slot.scan, hlist, hlist']
    rw [hscan]
    split
    · rfl
    · next slots hslots =>
      have hshows : t.Shows root.path _ := ⟨place, ht.shows⟩
      apply retrieveFrom_congr
      intro n hn
      apply Slot.alike_of_same hshows ⟨place, hspares.rooted.shows⟩ hl hnames
      · exact fun extension _ => hspares.found _ (hapart.below _)
      · exact (((Slot.of_scan hshows hl hnames hdir hslots).2 n).mp hn).2
  · rfl

end Disk

end KeyedLog
