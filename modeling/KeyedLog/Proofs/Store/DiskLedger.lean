import KeyedLog.Proofs.FileTree.Stepping
import KeyedLog.Proofs.Store.Contents
import KeyedLog.Proofs.Store.DiskKeys
import KeyedLog.Proofs.Text.FileName
import KeyedLog.Store.Disk
import Mathlib.Data.List.Perm.Subperm

/-!
# The ledger in a directory tree

What the directories of topics hold, and that a row is read back by its topic and partition alone:
topics that share a digest share a directory, but each has one of its own in it.
-/
namespace KeyedLog.Disk

open FileTree (Plain)
open Function (update)

/-! ## Collecting rows -/

/-- Rows are collected from every source, each once if no two sources have one in common. -/
theorem collect_ok {α : Type} {read : α → Except StateError (List Position)}
    {P : α → Position → Prop} {xs : List α} (hxs : xs.Nodup)
    (hread : ∀ x ∈ xs, ∃ rows, read x = .ok rows ∧ rows.Nodup ∧ ∀ row, row ∈ rows ↔ P x row)
    (hapart : ∀ x ∈ xs, ∀ y ∈ xs, ∀ row, P x row → P y row → x = y) :
    ∃ rows, collect read xs = .ok rows ∧ rows.Nodup ∧ ∀ row, row ∈ rows ↔ ∃ x ∈ xs, P x row := by
  induction xs with
  | nil => exact ⟨[], rfl, List.nodup_nil, by simp⟩
  | cons x rest ih =>
    obtain ⟨hx, hrest⟩ := List.nodup_cons.mp hxs
    obtain ⟨first, hfirst, hnodup, hmem⟩ := hread x List.mem_cons_self
    obtain ⟨more, hmore, hnodup', hmem'⟩ := ih hrest
      (fun y hy => hread y (List.mem_cons_of_mem _ hy))
      fun y hy z hz => hapart y (List.mem_cons_of_mem _ hy) z (List.mem_cons_of_mem _ hz)
    refine ⟨first ++ more, ?_, ?_, fun row => ?_⟩
    · simp only [collect, hfirst, hmore, Except.map]
    · apply hnodup.append hnodup'
      intro row hrow hrow'
      obtain ⟨y, hy, hPy⟩ := (hmem' row).mp hrow'
      have heq := hapart x List.mem_cons_self y (List.mem_cons_of_mem _ hy) row
        ((hmem row).mp hrow) hPy
      exact hx (heq ▸ hy)
    · simp only [List.mem_append, hmem, hmem', List.exists_mem_cons_iff]

/-! ## The directory of one topic -/

def partitionName (partition : Int) : String :=
  Decimal.ofInt partition ++ "." ++ partitionExtension

def topicFileName : String := "topicName.txt"

theorem topicNameFile_eq (l : Location) : topicNameFile l = l.join topicFileName := rfl

theorem dotless_partition : '.' ∉ partitionExtension.toList := by simp [partitionExtension]

theorem stemAndExtension_partitionName (partition : Int) :
    Text.stemAndExtension (partitionName partition) =
      (Decimal.ofInt partition, some partitionExtension) :=
  Decimal.stemAndExtension_ofInt partition dotless_partition

theorem stemAndExtension_topicFileName :
    Text.stemAndExtension topicFileName = ("topicName", some "txt") := by decide

theorem partitionName_inj {p q : Int} (h : partitionName p = partitionName q) : p = q := by
  have hparts := congrArg Text.stemAndExtension h
  rw [stemAndExtension_partitionName, stemAndExtension_partitionName, Prod.mk.injEq,
    Decimal.ofInt_inj] at hparts
  exact hparts.1

theorem partitionName_ne (p : Int) : partitionName p ≠ topicFileName := by
  intro h
  have hparts := congrArg Text.stemAndExtension h
  rw [stemAndExtension_partitionName, stemAndExtension_topicFileName, Prod.mk.injEq,
    Option.some.injEq] at hparts
  exact absurd hparts.2 (by decide)

/-- A directory, as a function of the names in it, that holds the rows of one topic. -/
structure TopicHolds (f : String → Option Node) (topic : String) (g : Int → Option Int) :
    Prop where
  named : f topicFileName = some (.file (.bytes (Utf8.encode topic)))
  rows : ∀ partition, f (partitionName partition) =
    (g partition).map fun offset => .file (.bytes (Utf8.encode (Decimal.ofInt offset)))
  only : ∀ x, (f x).isSome → x = topicFileName ∨ ∃ partition, x = partitionName partition

/-- The name of the topic, and no rows yet. -/
theorem TopicHolds.fresh (topic : String) {g : Int → Option Int} (hg : ∀ p, g p = none) :
    TopicHolds (update (fun _ => none) topicFileName (some (.file (.bytes (Utf8.encode topic)))))
      topic g where
  named := Function.update_self ..
  rows := by
    intro partition
    rw [Function.update_of_ne (partitionName_ne _), hg]
    rfl
  only := by
    intro x hx
    by_cases hname : x = topicFileName
    · exact .inl hname
    · rw [Function.update_of_ne hname] at hx
      cases hx

variable {t : FileTree} {path dir : Path} {v : Path → Option Node} {l : Location}
  {topic : String} {topics : List (Option String)}

theorem plain_append {x : String} (hdir : Plain dir) (hx : x ≠ "..") : Plain (dir ++ [x]) := by
  intro y hy
  cases List.mem_append.mp hy with
  | inl hy => exact hdir y hy
  | inr hy => rw [List.mem_singleton.mp hy]; exact hx

theorem partitionName_plain (p : Int) : partitionName p ≠ ".." := by
  intro h
  have hparts := congrArg Text.stemAndExtension h
  have hdots : Text.stemAndExtension ".." = (".", some "") := by decide
  rw [stemAndExtension_partitionName, hdots, Prod.mk.injEq, Option.some.injEq] at hparts
  exact absurd hparts.2 (by decide)

theorem join_path (hl : l.path = path ++ dir) (x : String) :
    (l.join x).path = path ++ (dir ++ [x]) := by
  rw [Location.path_join, hl, List.append_assoc]

theorem join_injective (l : Location) : Function.Injective l.join := by
  intro x y heq
  have hbelow := congrArg (fun l : Location => l.below.getLast?) heq
  simpa [Location.join] using hbelow

theorem readAt_ok (ht : t.Shows path v) (hl : l.path = path ++ dir) (hdir : Plain dir) {x : String}
    (hx : x ≠ "..") {data : Bytes} (hfile : v (dir ++ [x]) = some (.file (.bytes data))) :
    Slot.readAt t (l.join x) = .ok data := by
  have hread := ht.read_eq (plain_append hdir hx) hfile
  rw [Slot.readAt, join_path hl, hread]
  rfl

/-- What is read of a partition file is the row it was written for. -/
theorem readRow_ok (ht : t.Shows path v) (hl : l.path = path ++ dir) (hdir : Plain dir)
    {partition offset : Int} (hpartition : Decimal.minI32 ≤ partition ∧ partition ≤ Decimal.maxI32)
    (hoffset : Decimal.minI64 ≤ offset ∧ offset ≤ Decimal.maxI64)
    (hfile : v (dir ++ [partitionName partition]) =
      some (.file (.bytes (Utf8.encode (Decimal.ofInt offset))))) :
    readRow t topic l (partitionName partition) = .ok (some ⟨topic, partition, offset⟩) := by
  have hread := readAt_ok ht hl hdir (partitionName_plain partition) hfile
  simp only [readRow, stemAndExtension_partitionName, if_true, Decimal.readI32_ofInt hpartition,
    hread, Utf8.lossy_encode, Decimal.trim_ofInt, Decimal.readI64_ofInt hoffset]

theorem readTopic_ok (ht : t.Shows path v) (hl : l.path = path ++ dir) (hdir : Plain dir)
    (hthere : v dir = some .directory) {g : Int → Option Int}
    (h : TopicHolds (fun x => v (dir ++ [x])) topic g)
    (hranges : ∀ partition offset, g partition = some offset →
      (Decimal.minI32 ≤ partition ∧ partition ≤ Decimal.maxI32) ∧
        Decimal.minI64 ≤ offset ∧ offset ≤ Decimal.maxI64) :
    ∃ rows, readTopic t l = .ok rows ∧ rows.Nodup ∧
      ∀ row, row ∈ rows ↔ row.topic = topic ∧ g row.partition = some row.offset := by
  obtain ⟨names, hlist, hnodup, hnames⟩ := ht.list_eq hdir hthere
  have hname := readAt_ok ht hl hdir (by decide) h.named
  have hexists : t.exists? (topicNameFile l).path = true := by
    rw [topicNameFile_eq, join_path hl, ht.exists?_eq (plain_append hdir (by decide)),
      show v _ = _ from h.named]
    rfl
  have hrow : ∀ x ∈ names, ∃ rows,
      (readRow t topic l x).map Option.toList = .ok rows ∧ rows.Nodup ∧
        ∀ row, row ∈ rows ↔ x = partitionName row.partition ∧ row.topic = topic ∧
          g row.partition = some row.offset := by
    intro x hx
    rw [hnames] at hx
    rcases h.only x hx with rfl | ⟨partition, rfl⟩
    · refine ⟨[], ?_, List.nodup_nil, fun row => ?_⟩
      · rw [readRow, stemAndExtension_topicFileName]
        rfl
      · simp only [List.not_mem_nil, false_iff, not_and]
        intro heq
        exact absurd heq.symm (partitionName_ne _)
    · rw [show v _ = _ from h.rows partition, Option.isSome_map] at hx
      obtain ⟨offset, hoffset⟩ := Option.isSome_iff_exists.mp hx
      have hfile := h.rows partition
      rw [hoffset, Option.map_some] at hfile
      have hranges' := hranges partition offset hoffset
      refine ⟨[⟨topic, partition, offset⟩], ?_, List.nodup_singleton _, fun row => ?_⟩
      · rw [readRow_ok ht hl hdir hranges'.1 hranges'.2 hfile]
        rfl
      · rw [List.mem_singleton]
        constructor
        · rintro rfl
          exact ⟨rfl, rfl, hoffset⟩
        · rintro ⟨hpartition, htopic, hg⟩
          obtain ⟨rtopic, rpartition, roffset⟩ := row
          have := partitionName_inj hpartition
          simp_all
  obtain ⟨rows, hcollect, hrows, hmem⟩ := collect_ok hnodup hrow fun x _ y _ row hx hy =>
    hx.1.trans hy.1.symm
  refine ⟨rows, ?_, hrows, fun row => ?_⟩
  · simp only [readTopic, hexists, if_true]
    simp only [topicNameFile_eq, hname, hl, hlist, Utf8.lossy_encode, hcollect]
  · rw [hmem]
    constructor
    · rintro ⟨_, _, _, hrow⟩
      exact hrow
    · intro hrow
      refine ⟨_, ?_, rfl, hrow⟩
      rw [hnames, show v _ = _ from h.rows row.partition, hrow.2]
      rfl

/-- A directory without the name of a topic has no rows. -/
theorem readTopic_bare (ht : t.Shows path v) (hl : l.path = path ++ dir) (hdir : Plain dir)
    (hbare : ∀ x, v (dir ++ [x]) = none) : readTopic t l = .ok [] := by
  have hexists : t.exists? (topicNameFile l).path = false := by
    rw [topicNameFile_eq, join_path hl, ht.exists?_eq (plain_append hdir (by decide)), hbare]
    rfl
  simp [readTopic, hexists]

/-! ## The directory of the topics that share a digest -/

/-- A directory that holds the rows of a topic, or was made and has no name yet. -/
def EntryHolds (f : String → Option Node) (g : String → Int → Option Int) : Option String → Prop
  | none => ∀ x, f x = none
  | some topic => TopicHolds f topic (g topic)

/-- A directory, as a function of the names that lead on from it, that holds the rows of some
topics, each in a directory of its own: their numbers are their places in the list. A place without
a topic is a directory that was made and not named. In a tidy one every directory has rows. -/
structure GroupHolds (tidy : Prop) (f : Path → Option Node) (topics : List (Option String))
    (g : String → Int → Option Int) : Prop where
  once : ∀ (i j : Nat) (topic : String), topics[i]? = some (some topic) →
    topics[j]? = some (some topic) → i = j
  listed : ∀ topic partition, (g topic partition).isSome → some topic ∈ topics
  filled : tidy → ∀ entry ∈ topics, ∃ topic partition, entry = some topic ∧
    (g topic partition).isSome
  numbered : ∀ x, (f [x]).isSome → ∃ i < topics.length, x = Decimal.ofNat i
  there : ∀ i < topics.length, f [Decimal.ofNat i] = some .directory
  holds : ∀ (i : Nat) (entry : Option String), topics[i]? = some entry →
    EntryHolds (fun x => f [Decimal.ofNat i, x]) g entry

theorem ofNat_plain (n : Nat) : Decimal.ofNat n ≠ ".." := by
  intro h
  have hchars := congrArg String.toList h
  rw [Decimal.ofNat, String.toList_ofList] at hchars
  have hmem : '.' ∈ Decimal.digits n := by
    rw [hchars]
    decide
  obtain ⟨d, hd, heq⟩ := Decimal.mem_digits hmem
  exact (Decimal.digit_plain hd).1 heq.symm

/-- A directory that is listed. -/
theorem mem_subdirectories {d : Location} {dirs : List Location}
    (h : subdirectories t l = .ok dirs) (hd : d ∈ dirs) :
    ∃ x names, d = l.join x ∧ t.list l.path = .ok names ∧ x ∈ names ∧
      t.isDirectory d.path = true := by
  rw [subdirectories] at h
  split at h
  · cases h
  · next names hlist =>
    rw [← Except.ok.inj h] at hd
    obtain ⟨x, hx, rfl⟩ := List.mem_map.mp hd
    rw [List.mem_mergeSort, List.mem_filter] at hx
    exact ⟨x, names, rfl, hlist, hx.1, hx.2⟩

/-- The directories in a directory, each once. -/
theorem subdirectories_ok (ht : t.Shows path v) (hl : l.path = path ++ dir) (hdir : Plain dir)
    (hthere : v dir = some .directory) (hplain : ∀ x, (v (dir ++ [x])).isSome → x ≠ "..") :
    ∃ xs : List String, subdirectories t l = .ok (xs.map l.join) ∧ xs.Nodup ∧
      ∀ x, x ∈ xs ↔ v (dir ++ [x]) = some .directory := by
  obtain ⟨names, hlist, hnodup, hnames⟩ := ht.list_eq hdir hthere
  have hperm := List.mergeSort_perm
    (names.filter fun name => t.isDirectory (l.join name).path) fun a b => decide (a ≤ b)
  refine ⟨(names.filter fun name => t.isDirectory (l.join name).path).mergeSort fun a b => a ≤ b,
    ?_, ?_, fun x => ?_⟩
  · simp only [subdirectories, hl, hlist]
  · exact hperm.nodup_iff.mpr (hnodup.filter _)
  · rw [hperm.mem_iff, List.mem_filter, hnames, join_path hl]
    constructor
    · rintro ⟨hx, hdirectory⟩
      rw [ht.isDirectory_eq (plain_append hdir (hplain x hx)), decide_eq_true_eq] at hdirectory
      exact hdirectory
    · intro hx
      have hsome : (v (dir ++ [x])).isSome := by rw [hx]; rfl
      refine ⟨hsome, ?_⟩
      rw [ht.isDirectory_eq (plain_append hdir (hplain x hsome)), hx, decide_eq_true_eq]

namespace GroupHolds

variable {tidy : Prop} {f : Path → Option Node} {g : String → Int → Option Int}

theorem plain (h : GroupHolds tidy f topics g) {x : String} (hx : (f [x]).isSome) : x ≠ ".." := by
  obtain ⟨i, _, rfl⟩ := h.numbered x hx
  exact ofNat_plain i

theorem directory_iff (h : GroupHolds tidy f topics g) (x : String) :
    f [x] = some .directory ↔ ∃ i < topics.length, x = Decimal.ofNat i := by
  constructor
  · intro hx
    exact h.numbered x (by rw [hx]; rfl)
  · rintro ⟨i, hi, rfl⟩
    exact h.there i hi

/-- A tidy directory has no more directories in it than there are topics with rows. -/
theorem length_le (h : GroupHolds True f topics g) {few : Finset String}
    (hfew : ∀ topic partition, (g topic partition).isSome → topic ∈ few) :
    topics.length ≤ few.card := by
  have htopic : ∀ i ∈ Finset.range topics.length, ∃ topic ∈ few,
      topics[i]? = some (some topic) := by
    intro i hi
    have hi' := List.getElem?_eq_getElem (Finset.mem_range.mp hi)
    obtain ⟨topic, partition, hentry, hrow⟩ :=
      h.filled trivial _ (List.getElem_mem (Finset.mem_range.mp hi))
    exact ⟨topic, hfew topic partition hrow, hi'.trans (congrArg some hentry)⟩
  choose! topic hfew' hplace using htopic
  rw [← Finset.card_range topics.length]
  apply Finset.card_le_card_of_injOn topic hfew'
  intro i hi j hj heq
  exact h.once i j (topic i) (hplace i hi) (by rw [heq]; exact hplace j hj)

/-- The next number is free. -/
theorem free (h : GroupHolds tidy f topics g) : f [Decimal.ofNat topics.length] = none := by
  cases hnode : f [Decimal.ofNat topics.length] with
  | none => rfl
  | some node =>
    obtain ⟨i, hi, heq⟩ := h.numbered _ (Option.isSome_of_eq_some hnode)
    rw [Decimal.ofNat_inj] at heq
    omega

/-- It is tidy if every directory in it has rows. -/
theorem tidied {tidy' : Prop} (h : GroupHolds tidy f topics g)
    (hfilled : tidy' → ∀ entry ∈ topics, ∃ topic partition, entry = some topic ∧
      (g topic partition).isSome) : GroupHolds tidy' f topics g :=
  ⟨h.once, h.listed, hfilled, h.numbered, h.there, h.holds⟩

end GroupHolds

/-- Of each directory the rows of its topic are read, or none if it has no name. -/
theorem readEntry_ok {tidy : Prop} (ht : t.Shows path v) (hl : l.path = path ++ dir)
    (hdir : Plain dir) {g : String → Int → Option Int}
    (h : GroupHolds tidy (fun names => v (dir ++ names)) topics g)
    (hranges : ∀ topic partition offset, g topic partition = some offset →
      (Decimal.minI32 ≤ partition ∧ partition ≤ Decimal.maxI32) ∧
        Decimal.minI64 ≤ offset ∧ offset ≤ Decimal.maxI64)
    {i : Nat} (hi : i < topics.length) :
    ∃ rows, readTopic t (l.join (Decimal.ofNat i)) = .ok rows ∧ rows.Nodup ∧
      ∀ row, row ∈ rows ↔ topics[i]? = some (some row.topic) ∧
        g row.topic row.partition = some row.offset := by
  have hplace := join_path hl (Decimal.ofNat i)
  have hplain := plain_append hdir (ofNat_plain i)
  have hbelow : ∀ x, v (dir ++ [Decimal.ofNat i] ++ [x]) = v (dir ++ [Decimal.ofNat i, x]) := by
    intro x
    rw [List.append_assoc, List.singleton_append]
  have hentry := h.holds i _ (List.getElem?_eq_getElem hi)
  rw [List.getElem?_eq_getElem hi]
  cases htopic : topics[i] with
  | none =>
    rw [htopic] at hentry
    have hbare : ∀ x, v (dir ++ [Decimal.ofNat i] ++ [x]) = none := fun x =>
      (hbelow x).trans (hentry x)
    exact ⟨[], readTopic_bare ht hplace hplain hbare, List.nodup_nil, by simp⟩
  | some topic =>
    rw [htopic] at hentry
    have hholds : TopicHolds (fun x => v (dir ++ [Decimal.ofNat i] ++ [x])) topic (g topic) := by
      simp only [hbelow]
      exact hentry
    obtain ⟨rows, hrows, hnodup, hmem⟩ := readTopic_ok ht hplace hplain (h.there i hi) hholds
      (hranges topic)
    refine ⟨rows, hrows, hnodup, fun row => ?_⟩
    rw [hmem, Option.some.injEq, Option.some.injEq]
    constructor
    · rintro ⟨rfl, hrow⟩
      exact ⟨rfl, hrow⟩
    · rintro ⟨rfl, hrow⟩
      exact ⟨rfl, hrow⟩

theorem readGroup_ok {tidy : Prop} (ht : t.Shows path v) (hl : l.path = path ++ dir)
    (hdir : Plain dir) (hthere : v dir = some .directory) {g : String → Int → Option Int}
    (h : GroupHolds tidy (fun names => v (dir ++ names)) topics g)
    (hranges : ∀ topic partition offset, g topic partition = some offset →
      (Decimal.minI32 ≤ partition ∧ partition ≤ Decimal.maxI32) ∧
        Decimal.minI64 ≤ offset ∧ offset ≤ Decimal.maxI64) :
    ∃ rows, readGroup t l = .ok rows ∧ rows.Nodup ∧
      ∀ row, row ∈ rows ↔ g row.topic row.partition = some row.offset := by
  obtain ⟨xs, hsub, hnodup, hxs⟩ := subdirectories_ok ht hl hdir hthere fun x hx => h.plain hx
  have hread : ∀ place ∈ xs.map l.join, ∃ rows, readTopic t place = .ok rows ∧ rows.Nodup ∧
      ∀ row, row ∈ rows ↔ ∃ i, place = l.join (Decimal.ofNat i) ∧
        topics[i]? = some (some row.topic) ∧ g row.topic row.partition = some row.offset := by
    intro place hplace
    obtain ⟨x, hx, rfl⟩ := List.mem_map.mp hplace
    obtain ⟨i, hi, rfl⟩ := (h.directory_iff x).mp ((hxs x).mp hx)
    obtain ⟨rows, hrows, hrowsNodup, hmem⟩ := readEntry_ok ht hl hdir h hranges hi
    refine ⟨rows, hrows, hrowsNodup, fun row => ?_⟩
    rw [hmem]
    constructor
    · intro hrow
      exact ⟨i, rfl, hrow⟩
    · rintro ⟨j, heq, hrow⟩
      obtain rfl := Decimal.ofNat_inj.mp (join_injective l heq)
      exact hrow
  obtain ⟨rows, hcollect, hrows, hmem⟩ := collect_ok (hnodup.map (join_injective l)) hread (by
    rintro _ _ _ _ row ⟨i, rfl, hi, _⟩ ⟨j, rfl, hj, _⟩
    rw [h.once i j _ hi hj])
  refine ⟨rows, ?_, hrows, fun row => ?_⟩
  · simp only [readGroup, hsub, hcollect]
  · rw [hmem]
    constructor
    · rintro ⟨_, _, _, _, _, hrow⟩
      exact hrow
    · intro hrow
      have hin := h.listed row.topic row.partition (by rw [hrow]; rfl)
      obtain ⟨i, hi⟩ := List.mem_iff_getElem?.mp hin
      refine ⟨_, List.mem_map.mpr ⟨Decimal.ofNat i, ?_, rfl⟩, i, rfl, hi, hrow⟩
      rw [hxs]
      exact h.there i (List.getElem?_eq_some_iff.mp hi).1

/-! ## The whole ledger -/

/-- The rows of the topics that have a digest. -/
def rowsIn (g : String → Int → Option Int) (d : String) : String → Int → Option Int :=
  fun topic partition => if digest (Utf8.encode topic) = d then g topic partition else none

/-- The directory of the ledger, as a function of the names that lead on from it. -/
structure LedgerHolds (tidy : Prop) (f : Path → Option Node) (g : String → Int → Option Int) :
    Prop where
  root : f [] = none ∨ f [] = some .directory
  named : ∀ x, (f [x]).isSome → f [x] = some .directory ∧ ∃ topic, x = digest (Utf8.encode topic)
  groups : ∀ d, ∃ topics, GroupHolds tidy (fun names => f (d :: names)) topics (rowsIn g d)

theorem plain_digest (key : Bytes) : digest key ≠ ".." := by
  intro h
  have hlength := digest_length key
  rw [h] at hlength
  exact absurd hlength (by decide)

theorem LedgerHolds.plain {tidy : Prop} {f : Path → Option Node} {g : String → Int → Option Int}
    (h : LedgerHolds tidy f g) {x : String} (hx : (f [x]).isSome) : x ≠ ".." := by
  obtain ⟨_, topic, rfl⟩ := h.named x hx
  exact plain_digest _

/-- The topic of a row has a directory. -/
theorem LedgerHolds.directory {tidy : Prop} {f : Path → Option Node}
    {g : String → Int → Option Int} (h : LedgerHolds tidy f g) {topic : String}
    {partition offset : Int} (hrow : g topic partition = some offset) :
    ∃ i, f [digest (Utf8.encode topic), Decimal.ofNat i] = some .directory := by
  obtain ⟨topics, hgroup⟩ := h.groups (digest (Utf8.encode topic))
  have hin := hgroup.listed topic partition (by rw [rowsIn, if_pos rfl, hrow]; rfl)
  obtain ⟨i, hi⟩ := List.mem_iff_getElem?.mp hin
  exact ⟨i, hgroup.there i (List.getElem?_eq_some_iff.mp hi).1⟩

theorem plain_ledger : Plain [ledgerName] := by
  intro x hx
  rw [List.mem_singleton.mp hx]
  decide

theorem ledgerRoot_path (root : Location) : (ledgerRoot root).path = root.path ++ [ledgerName] :=
  Location.path_join root _

theorem ledger_ok {tidy : Prop} {root : Location} {m : Contents} (ht : t.Shows root.path v)
    (h : LedgerHolds tidy (fun names => v (ledgerName :: names)) m.offset?) (hm : m.InRange) :
    ∃ rows, ledger t root = .ok rows ∧ m.Lists rows := by
  have hl := ledgerRoot_path root
  have hdirectory := ht.isDirectory_eq plain_ledger
  rw [← hl] at hdirectory
  rcases h.root with hnone | hthere
  · refine ⟨[], by simp [ledger, hdirectory, hnone], List.Pairwise.nil, fun row => ?_⟩
    simp only [List.not_mem_nil, false_iff]
    intro hrow
    obtain ⟨i, hsome⟩ := h.directory hrow
    have hbelow := ht.none_below hnone [digest (Utf8.encode row.topic), Decimal.ofNat i]
    rw [List.singleton_append, hsome] at hbelow
    cases hbelow
  · obtain ⟨xs, hsub, hnodup, hxs⟩ := subdirectories_ok ht hl plain_ledger hthere fun x hx =>
      h.plain hx
    have hread : ∀ place ∈ xs.map (ledgerRoot root).join, ∃ rows,
        readGroup t place = .ok rows ∧ rows.Nodup ∧ ∀ row, row ∈ rows ↔
          place = (ledgerRoot root).join (digest (Utf8.encode row.topic)) ∧
            m.offset? row.topic row.partition = some row.offset := by
      intro place hplace
      obtain ⟨x, hx, rfl⟩ := List.mem_map.mp hplace
      rw [hxs] at hx
      obtain ⟨topics, hgroup⟩ := h.groups x
      obtain ⟨rows, hrows, hrowsNodup, hmem⟩ := readGroup_ok ht (join_path hl x)
        (plain_append plain_ledger (h.plain (Option.isSome_of_eq_some hx))) hx hgroup
        (by
          intro topic partition offset hrow
          rw [rowsIn] at hrow
          split at hrow
          · exact hm topic partition offset hrow
          · cases hrow)
      refine ⟨rows, hrows, hrowsNodup, fun row => ?_⟩
      rw [hmem, rowsIn, (join_injective _).eq_iff, eq_comm (a := x)]
      split
      · next heq => simp [heq]
      · next hne => simp [hne]
    obtain ⟨rows, hcollect, hrows, hmem⟩ := collect_ok (hnodup.map (join_injective _)) hread
      fun x _ y _ row hx hy => hx.1.trans hy.1.symm
    refine ⟨Position.sorted rows, ?_, ?_⟩
    · simp only [ledger, hdirectory, hthere, decide_true, if_true, hsub, hcollect, Except.map]
    · apply Contents.lists_sorted hrows
      intro row
      rw [hmem]
      constructor
      · rintro ⟨_, _, _, hrow⟩
        exact hrow
      · intro hrow
        refine ⟨_, List.mem_map.mpr ⟨digest (Utf8.encode row.topic), ?_, rfl⟩, rfl, hrow⟩
        obtain ⟨i, hsome⟩ := h.directory hrow
        rw [hxs]
        have hpre : [ledgerName, digest (Utf8.encode row.topic)] <+:
            [ledgerName, digest (Utf8.encode row.topic), Decimal.ofNat i] := by
          simp [List.prefix_cons_iff]
        exact ht.ancestor hpre hsome (by simp)

/-! ## Finding a topic -/

/-- The search ends at the directory of the topic. -/
theorem findTopic_here {tidy : Prop} (ht : t.Shows path v) (hl : l.path = path ++ dir)
    (hdir : Plain dir) {g : String → Int → Option Int}
    (h : GroupHolds tidy (fun names => v (dir ++ names)) topics g) {topic : String} {i : Nat}
    (hi : topics[i]? = some (some topic)) (next : Nat) (rest : List Location) :
    findTopic t topic next (l.join (Decimal.ofNat i) :: rest) =
      .ok (.inl (l.join (Decimal.ofNat i))) := by
  have hplace := join_path hl (Decimal.ofNat i)
  have hplain := plain_append hdir (ofNat_plain i)
  have hentry : TopicHolds _ topic _ := h.holds i _ hi
  have hfile : v (dir ++ [Decimal.ofNat i] ++ [topicFileName]) =
      some (.file (.bytes (Utf8.encode topic))) := by
    rw [List.append_assoc]
    exact hentry.named
  have hexists := ht.exists?_eq (plain_append hplain (x := topicFileName) (by decide))
  rw [← join_path hplace, hfile] at hexists
  have hread := readAt_ok ht hplace hplain (by decide) hfile
  rw [findTopic]
  simp only [topicNameFile_eq, hexists, hread, Option.isSome_some, if_true]

/-- The search goes on behind every other directory, whose number is taken. -/
theorem findTopic_other {tidy : Prop} (ht : t.Shows path v) (hl : l.path = path ++ dir)
    (hdir : Plain dir) {g : String → Int → Option Int}
    (h : GroupHolds tidy (fun names => v (dir ++ names)) topics g)
    (hfew : topics.length ≤ Decimal.maxU32) {topic : String} {i : Nat} (hi : i < topics.length)
    (hne : topics[i] ≠ some topic) (next : Nat) (rest : List Location) :
    findTopic t topic next (l.join (Decimal.ofNat i) :: rest) =
      findTopic t topic (max next (i + 1)) rest := by
  have hplace := join_path hl (Decimal.ofNat i)
  have hplain := plain_append hdir (ofNat_plain i)
  have hname : v (dir ++ [Decimal.ofNat i] ++ [topicFileName]) =
      v (dir ++ [Decimal.ofNat i, topicFileName]) := by
    rw [List.append_assoc, List.singleton_append]
  have hexists := ht.exists?_eq (plain_append hplain (x := topicFileName) (by decide))
  rw [← join_path hplace, hname] at hexists
  have hbelow : (l.join (Decimal.ofNat i)).below.getLast?.getD "" = Decimal.ofNat i := by
    simp [Location.join]
  have hnumber : Decimal.readU32 (Decimal.ofNat i) = .ok i := Decimal.readU32_ofNat (by omega)
  have hentry := h.holds i _ (List.getElem?_eq_getElem hi)
  rw [findTopic]
  cases htopic : topics[i] with
  | none =>
    rw [htopic] at hentry
    rw [show v _ = none from hentry _] at hexists
    simp only [hbelow, hnumber, topicNameFile_eq, hexists, Option.isSome_none, Bool.false_eq_true,
      if_false]
  | some held =>
    rw [htopic] at hentry hne
    have hfile := TopicHolds.named hentry
    rw [show v _ = _ from hfile] at hexists
    have hread := readAt_ok ht hplace hplain (by decide) (hname.trans hfile)
    have hbytes : Utf8.encode held ≠ Utf8.encode topic := fun hbytes =>
      hne (congrArg some (Utf8.encode_inj hbytes))
    simp only [hbelow, hnumber, topicNameFile_eq, hexists, hread, Option.isSome_some, if_true,
      if_neg hbytes]

/-- The topic is found in one of the directories, or the number for a new one is told. -/
theorem findTopic_ok {tidy : Prop} (ht : t.Shows path v) (hl : l.path = path ++ dir)
    (hdir : Plain dir) {g : String → Int → Option Int}
    (h : GroupHolds tidy (fun names => v (dir ++ names)) topics g)
    (hfew : topics.length ≤ Decimal.maxU32) (topic : String) (next : Nat) {xs : List String}
    (hxs : ∀ x ∈ xs, v (dir ++ [x]) = some .directory) :
    (∃ i, topics[i]? = some (some topic) ∧
      findTopic t topic next (xs.map l.join) = .ok (.inl (l.join (Decimal.ofNat i)))) ∨
    (∃ n, findTopic t topic next (xs.map l.join) = .ok (.inr n) ∧
      (∀ i, Decimal.ofNat i ∈ xs → topics[i]? ≠ some (some topic) ∧ i < n) ∧
      next ≤ n ∧ (n = next ∨ n ≤ topics.length)) := by
  induction xs generalizing next with
  | nil => exact .inr ⟨next, rfl, by simp, Nat.le_refl next, .inl rfl⟩
  | cons x rest ih =>
    obtain ⟨i, hi, rfl⟩ := (h.directory_iff x).mp (hxs x List.mem_cons_self)
    have hi' := List.getElem?_eq_getElem hi
    rw [List.map_cons]
    by_cases htopic : topics[i] = some topic
    · rw [htopic] at hi'
      exact .inl ⟨i, hi', findTopic_here ht hl hdir h hi' next _⟩
    · rw [findTopic_other ht hl hdir h hfew hi htopic]
      refine (ih (max next (i + 1)) fun y hy => hxs y (List.mem_cons_of_mem _ hy)).imp_right ?_
      rintro ⟨n, hfind, hothers, hle, hn⟩
      refine ⟨n, hfind, fun j hj => ?_, by omega, by omega⟩
      cases List.mem_cons.mp hj with
      | inl hij =>
        obtain rfl := Decimal.ofNat_inj.mp hij
        rw [hi', ne_eq, Option.some.injEq]
        exact ⟨htopic, by omega⟩
      | inr hj => exact hothers j hj

/-- Among all the directories a topic is found, or it is new and its number is the next one. -/
theorem findTopic_all {tidy : Prop} (ht : t.Shows path v) (hl : l.path = path ++ dir)
    (hdir : Plain dir) {g : String → Int → Option Int}
    (h : GroupHolds tidy (fun names => v (dir ++ names)) topics g)
    (hfew : topics.length ≤ Decimal.maxU32) (topic : String) {xs : List String}
    (hxs : ∀ x, x ∈ xs ↔ v (dir ++ [x]) = some .directory) :
    (∃ i, topics[i]? = some (some topic) ∧
      findTopic t topic 0 (xs.map l.join) = .ok (.inl (l.join (Decimal.ofNat i)))) ∨
    some topic ∉ topics ∧ findTopic t topic 0 (xs.map l.join) = .ok (.inr topics.length) := by
  have hmem : ∀ i < topics.length, Decimal.ofNat i ∈ xs := fun i hi => (hxs _).mpr (h.there i hi)
  rcases findTopic_ok ht hl hdir h hfew topic 0 fun x hx => (hxs x).mp hx with
    hfound | ⟨n, hfind, hothers, -, hn⟩
  · exact .inl hfound
  · obtain rfl : n = topics.length := by
      apply Nat.le_antisymm
      · omega
      · by_contra hlt
        have := (hothers n (hmem n (by omega))).2
        omega
    refine .inr ⟨fun hin => ?_, hfind⟩
    obtain ⟨i, hi⟩ := List.mem_iff_getElem?.mp hin
    exact (hothers i (hmem i (List.getElem?_eq_some_iff.mp hi).1)).1 hi

end KeyedLog.Disk
