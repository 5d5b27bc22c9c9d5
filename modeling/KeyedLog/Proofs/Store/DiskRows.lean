import KeyedLog.Proofs.Store.DiskLedger

/-!
# Entering rows in a directory tree

What each step of entering a row does to the ledger. A directory for its topic may come up before
the topic is named in it, and the topic before it has a row: in between the rows are as before.
-/
namespace KeyedLog.Disk

open FileTree (Plain)
open Function (update)

variable {t : FileTree} {path dir : Path} {v : Path → Option Node} {l : Location}
  {topic : String} {topics : List (Option String)}

/-! ## Rows and directories -/

/-- A row in place of the one for its partition. -/
def setRow (g : String → Int → Option Int) (p : Position) : String → Int → Option Int :=
  fun topic partition =>
    if topic = p.topic ∧ partition = p.partition then some p.offset else g topic partition

/-- The file of a row. -/
def rowNode (p : Position) : Node := .file (.bytes (Utf8.encode (Decimal.ofInt p.offset)))

theorem TopicHolds.setRow {f : String → Option Node} {g : String → Int → Option Int}
    {p : Position} (h : TopicHolds f p.topic (g p.topic)) :
    TopicHolds (update f (partitionName p.partition) (some (rowNode p))) p.topic
      (setRow g p p.topic) where
  named := by
    rw [Function.update_of_ne (Ne.symm (partitionName_ne _))]
    exact h.named
  rows := by
    intro partition
    by_cases hp : partition = p.partition
    · rw [hp, Function.update_self, Disk.setRow, if_pos ⟨rfl, rfl⟩]
      rfl
    · have hne : partitionName partition ≠ partitionName p.partition := fun h =>
        hp (partitionName_inj h)
      rw [Function.update_of_ne hne, h.rows, Disk.setRow, if_neg (by simp [hp])]
  only := by
    intro x hx
    by_cases hp : x = partitionName p.partition
    · exact .inr ⟨_, hp⟩
    · rw [Function.update_of_ne hp] at hx
      exact h.only x hx

theorem setRow_other {g : String → Int → Option Int} {p : Position} (h : topic ≠ p.topic) :
    setRow g p topic = g topic := by
  funext partition
  rw [setRow, if_neg (by simp [h])]

/-- Rows are only added. -/
theorem isSome_setRow {g : String → Int → Option Int} {p : Position} {partition : Int}
    (h : (g topic partition).isSome) : (setRow g p topic partition).isSome := by
  rw [setRow]
  split
  · rfl
  · exact h

namespace GroupHolds

variable {tidy : Prop} {f : Path → Option Node} {g : String → Int → Option Int} {p : Position}

/-- Other files in the directory at one place, for a topic that has no other place. -/
theorem place (h : GroupHolds tidy f topics g) {f' : Path → Option Node}
    {g' : String → Int → Option Int} {i : Nat} (hi : i < topics.length)
    (hf : ∀ names, (∀ x, names ≠ [Decimal.ofNat i, x]) → f' names = f names)
    (honly : ∀ j, topics[j]? = some (some topic) → j = i)
    (hg : ∀ other, other ≠ topic → g' other = g other)
    (hhere : TopicHolds (fun x => f' [Decimal.ofNat i, x]) topic (g' topic))
    (hheld : ∀ other, topics[i]? = some (some other) → other = topic) :
    GroupHolds False f' (topics.set i (some topic)) g' := by
  have hplace : ∀ j ≠ i, (topics.set i (some topic))[j]? = topics[j]? := fun j hj =>
    List.getElem?_set_ne (Ne.symm hj)
  have hself : (topics.set i (some topic))[i]? = some (some topic) :=
    List.getElem?_set_self hi
  -- at every other place there is another topic
  have hother : ∀ {j other}, (topics.set i (some topic))[j]? = some (some other) →
      (j = i ↔ other = topic) := by
    intro j other hj
    by_cases hji : j = i
    · subst hji
      rw [hself, Option.some.injEq, Option.some.injEq] at hj
      exact iff_of_true rfl hj.symm
    · rw [hplace j hji] at hj
      exact iff_of_false hji fun heq => hji (honly j (heq ▸ hj))
  constructor
  · intro a b other ha hb
    by_cases heq : other = topic
    · rw [(hother ha).mpr heq, (hother hb).mpr heq]
    · rw [hplace a fun hai => heq ((hother ha).mp hai)] at ha
      rw [hplace b fun hbi => heq ((hother hb).mp hbi)] at hb
      exact h.once a b other ha hb
  · intro other partition hrow
    by_cases heq : other = topic
    · rw [heq]
      exact List.mem_of_getElem? hself
    · rw [hg other heq] at hrow
      obtain ⟨j, hj⟩ := List.mem_iff_getElem?.mp (h.listed other partition hrow)
      have hji : j ≠ i := by
        rintro rfl
        exact heq (hheld other hj)
      exact List.mem_of_getElem? ((hplace j hji).trans hj)
  · exact False.elim
  · intro x hx
    rw [hf _ (by simp)] at hx
    rw [List.length_set]
    exact h.numbered x hx
  · intro j hj
    rw [List.length_set] at hj
    rw [hf _ (by simp)]
    exact h.there j hj
  · intro j entry hj
    by_cases hji : j = i
    · subst hji
      obtain rfl := Option.some.inj (hself.symm.trans hj)
      exact hhere
    · have hsame : (fun x => f' [Decimal.ofNat j, x]) = fun x => f [Decimal.ofNat j, x] := by
        funext x
        exact hf _ (by simp [Decimal.ofNat_inj, hji])
      have hheld := h.holds j entry ((hplace j hji).symm.trans hj)
      rw [hsame]
      cases entry with
      | none => exact hheld
      | some other =>
        rw [EntryHolds, hg other fun heq => hji ((hother hj).mpr heq)]
        exact hheld

/-- A row of a topic that has a directory. -/
theorem setRow (h : GroupHolds tidy f topics g) {i : Nat} (hi : topics[i]? = some (some p.topic)) :
    GroupHolds tidy (update f [Decimal.ofNat i, partitionName p.partition] (some (rowNode p)))
      topics (setRow g p) := by
  obtain ⟨hlt, hentry⟩ := List.getElem?_eq_some_iff.mp hi
  have hholds : TopicHolds _ p.topic _ := h.holds i _ hi
  have hset : GroupHolds False
      (update f [Decimal.ofNat i, partitionName p.partition] (some (rowNode p)))
      (topics.set i (some p.topic)) (Disk.setRow g p) := by
    apply h.place hlt
    · intro names hnames
      exact Function.update_of_ne (hnames _) ..
    · exact fun j hj => h.once j i _ hj hi
    · exact fun other hother => setRow_other hother
    · convert hholds.setRow using 1
      funext x
      simp only [Function.update_apply, List.cons.injEq, true_and, and_true]
    · intro other hother
      rw [hi, Option.some.injEq, Option.some.injEq] at hother
      exact hother.symm
  rw [← hentry, List.set_getElem_self] at hset
  apply hset.tidied
  intro htidy entry hmem
  obtain ⟨topic, partition, heq, hrow⟩ := h.filled htidy entry hmem
  exact ⟨topic, partition, heq, isSome_setRow hrow⟩

/-- One more directory, without a name. -/
theorem grow (h : GroupHolds tidy f topics g)
    (hfree : ∀ x, f [Decimal.ofNat topics.length, x] = none) :
    GroupHolds False (update f [Decimal.ofNat topics.length] (some .directory)) (topics ++ [none])
      g := by
  have hplace : ∀ {i entry}, (topics ++ [none])[i]? = some entry →
      topics[i]? = some entry ∨ i = topics.length ∧ entry = none := by
    intro i entry hi
    rw [List.getElem?_append] at hi
    split at hi
    · exact .inl hi
    · rw [List.getElem?_singleton] at hi
      split at hi
      · exact .inr ⟨by omega, (Option.some.inj hi).symm⟩
      · cases hi
  have hold : ∀ {i topic}, (topics ++ [none])[i]? = some (some topic) →
      topics[i]? = some (some topic) := fun hi => (hplace hi).resolve_right (by simp)
  constructor
  · exact fun i j topic hi hj => h.once i j topic (hold hi) (hold hj)
  · exact fun topic partition hrow => List.mem_append_left _ (h.listed topic partition hrow)
  · exact False.elim
  · intro x hx
    rw [List.length_append, List.length_singleton]
    rw [Function.update_apply] at hx
    split at hx
    · next heq => exact ⟨topics.length, by omega, (List.cons.inj heq).1⟩
    · obtain ⟨i, hi, hxi⟩ := h.numbered x hx
      exact ⟨i, by omega, hxi⟩
  · intro i hi
    rw [List.length_append, List.length_singleton] at hi
    rw [Function.update_apply]
    split
    · rfl
    · next hne =>
      have hlast : i ≠ topics.length := by
        rintro rfl
        exact hne rfl
      exact h.there i (by omega)
  · intro i entry hi
    have hsame : (fun x => update f [Decimal.ofNat topics.length] (some .directory)
        [Decimal.ofNat i, x]) = fun x => f [Decimal.ofNat i, x] := by
      funext x
      rw [Function.update_of_ne (by simp)]
    rw [hsame]
    rcases hplace hi with hi | ⟨rfl, rfl⟩
    · exact h.holds i entry hi
    · exact hfree

/-- The last directory gets the name of a topic that has none. -/
theorem name (h : GroupHolds tidy f (topics ++ [none]) g) (hnew : some topic ∉ topics) :
    GroupHolds False (update f [Decimal.ofNat topics.length, topicFileName]
      (some (.file (.bytes (Utf8.encode topic))))) (topics ++ [some topic]) g := by
  have hlast : (topics ++ [none])[topics.length]? = some none := List.getElem?_concat_length
  have hbare := h.holds topics.length none hlast
  have habsent : some topic ∉ topics ++ [none] := by simpa using hnew
  have hnone : ∀ partition, g topic partition = none := by
    intro partition
    cases hg : g topic partition with
    | none => rfl
    | some offset => exact absurd (h.listed topic partition (by rw [hg]; rfl)) habsent
  have hset : (topics ++ [none]).set topics.length (some topic) = topics ++ [some topic] := by
    simp
  rw [← hset]
  apply h.place
  · simp
  · intro names hnames
    exact Function.update_of_ne (hnames _) ..
  · exact fun j hj => absurd (List.mem_of_getElem? hj) habsent
  · exact fun _ _ => rfl
  · convert TopicHolds.fresh topic hnone using 1
    funext x
    simp only [Function.update_apply, List.cons.injEq, true_and, and_true]
    rw [show f _ = none from hbare x]
  · intro other hother
    rw [hlast] at hother
    cases hother

theorem congr {f' : Path → Option Node} (h : GroupHolds tidy f topics g)
    (hsame : ∀ x rest, f' (x :: rest) = f (x :: rest)) : GroupHolds tidy f' topics g where
  once := h.once
  listed := h.listed
  filled := h.filled
  numbered := by
    intro x
    rw [hsame]
    exact h.numbered x
  there := by
    intro i
    rw [hsame]
    exact h.there i
  holds := by
    intro i entry hi
    simp only [hsame]
    exact h.holds i entry hi

end GroupHolds

theorem rowsIn_setRow (g : String → Int → Option Int) (p : Position) :
    rowsIn (setRow g p) (digest (Utf8.encode p.topic)) =
      setRow (rowsIn g (digest (Utf8.encode p.topic))) p := by
  funext topic partition
  by_cases htopic : topic = p.topic
  · simp [rowsIn, setRow, htopic]
  · simp [rowsIn, setRow, htopic]

/-! ## Views that differ in one directory of the ledger -/

/-- What differs between two views lies in the directory of a digest. -/
def DiffersIn (d : String) (v w : Path → Option Node) : Prop :=
  ∀ names, (∀ x rest, names ≠ ledgerName :: d :: x :: rest) → w names = v names

namespace DiffersIn

variable {d : String} {w : Path → Option Node}

theorem refl (d : String) (v : Path → Option Node) : DiffersIn d v v := fun _ _ => rfl

theorem update (h : DiffersIn d v w) (x : String) (rest : Path) (node : Option Node) :
    DiffersIn d v (update w (ledgerName :: d :: x :: rest) node) := by
  intro names hnames
  rw [Function.update_of_ne (hnames x rest)]
  exact h names hnames

theorem there (h : DiffersIn d v w) : w [ledgerName, d] = v [ledgerName, d] := h _ (by simp)

theorem outside (h : DiffersIn d v w) {names : Path} (hnames : ¬[ledgerName] <+: names) :
    w names = v names := by
  apply h
  rintro x rest rfl
  exact hnames (by simp)

end DiffersIn

theorem below_update (w : Path → Option Node) (d : String) (rest : Path) (node : Option Node) :
    (fun names => update w (ledgerName :: d :: rest) node (ledgerName :: d :: names)) =
      update (fun names => w (ledgerName :: d :: names)) rest node := by
  funext names
  simp only [Function.update_apply, List.cons.injEq, true_and]

namespace LedgerHolds

variable {tidy : Prop} {w : Path → Option Node} {g g' : String → Int → Option Int}

theorem untidy {f : Path → Option Node} (h : LedgerHolds tidy f g) : LedgerHolds False f g where
  root := h.root
  named := h.named
  groups := by
    intro d
    obtain ⟨topics, hgroup⟩ := h.groups d
    exact ⟨topics, hgroup.tidied False.elim⟩

/-- Other rows in the directory of one digest. -/
theorem replace (h : LedgerHolds tidy (fun names => v (ledgerName :: names)) g) {d : String}
    (hin : DiffersIn d v w)
    (hgroup : GroupHolds tidy (fun names => w (ledgerName :: d :: names)) topics (rowsIn g' d))
    (hg : ∀ topic, digest (Utf8.encode topic) ≠ d → g' topic = g topic) :
    LedgerHolds tidy (fun names => w (ledgerName :: names)) g' where
  root := by
    rw [hin _ (by simp)]
    exact h.root
  named := by
    intro x
    rw [hin _ (by simp)]
    exact h.named x
  groups := by
    intro e
    by_cases he : e = d
    · exact ⟨topics, he ▸ hgroup⟩
    · obtain ⟨topics', hgroup'⟩ := h.groups e
      have hrows : rowsIn g' e = rowsIn g e := by
        funext topic partition
        rw [rowsIn, rowsIn]
        split
        · next heq => rw [hg topic (by rw [heq]; exact he)]
        · rfl
      have hsame : (fun names => w (ledgerName :: e :: names)) =
          fun names => v (ledgerName :: e :: names) := by
        funext names
        apply hin
        rintro x rest heq
        exact he (List.cons.inj (List.cons.inj heq).2).1
      rw [hrows, hsame]
      exact ⟨topics', hgroup'⟩

/-- Directories may come up on the way to the one of a digest. -/
theorem opened (h : LedgerHolds tidy (fun names => v (ledgerName :: names)) g) {topic : String}
    {other : Path} (hother : other <+: [ledgerName, digest (Utf8.encode topic)]) :
    LedgerHolds tidy (fun names => FileTree.opened v other (ledgerName :: names)) g where
  root := by
    rw [FileTree.opened]
    split
    · exact .inr rfl
    · exact h.root
  named := by
    intro x
    rw [FileTree.opened]
    split
    · next hx =>
      have hpre := hx.trans hother
      rw [List.cons_prefix_cons, List.cons_prefix_cons] at hpre
      exact fun _ => ⟨rfl, topic, hpre.2.1⟩
    · exact h.named x
  groups := by
    intro d
    obtain ⟨topics, hgroup⟩ := h.groups d
    refine ⟨topics, hgroup.congr fun x rest => FileTree.opened_other fun hpre => ?_⟩
    have hlength := (hpre.trans hother).length_le
    simp at hlength

theorem clear (h : LedgerHolds tidy (fun names => v (ledgerName :: names)) g)
    (hroot : v [] = some .directory) (d : String) : FileTree.Clear v [ledgerName, d] := by
  intro other hother
  simp only [List.prefix_cons_iff, List.prefix_nil] at hother
  rcases hother with rfl | ⟨_, rfl, rfl | ⟨_, rfl, rfl⟩⟩
  · exact .inr hroot
  · exact h.root
  · cases hd : v [ledgerName, d] with
    | none => exact .inl rfl
    | some node => exact .inr (hd ▸ (h.named _ (Option.isSome_of_eq_some hd)).1)

end LedgerHolds

theorem group_path (root : Location) (topic : String) :
    (group root topic).path = root.path ++ [ledgerName, digest (Utf8.encode topic)] := by
  rw [group, Location.path_join, ledgerRoot_path, List.append_assoc]
  rfl

theorem plain_group (topic : String) : Plain [ledgerName, digest (Utf8.encode topic)] :=
  plain_append plain_ledger (plain_digest _)

/-! ## The steps of entering a row -/

/-- A tree that shows a view but for the directory of a digest, which holds rows that have a
property. -/
def GroupShows (path : Path) (v : Path → Option Node) (d : String)
    (R : (String → Int → Option Int) → Prop) (t : FileTree) : Prop :=
  ∃ w topics g, t.Shows path w ∧ DiffersIn d v w ∧
    GroupHolds False (fun names => w (ledgerName :: d :: names)) topics g ∧ R g

section Recording

variable {tidy : Prop} {d : String} {w : Path → Option Node} {g : String → Int → Option Int}
  {R : (String → Int → Option Int) → Prop} {p : Position}

/-- A row is written into the directory of its topic. -/
theorem record_passes (ht : t.Shows path w) (hl : l.path = path ++ [ledgerName, d])
    (hdir : Plain [ledgerName, d]) (hin : DiffersIn d v w)
    (h : GroupHolds tidy (fun names => w (ledgerName :: d :: names)) topics g) {i : Nat}
    (hi : topics[i]? = some (some p.topic)) (hold : R g) (hnew : R (setRow g p)) :
    ∃ s w', t.Passes [record (l.join (Decimal.ofNat i)) p] s (GroupShows path v d R) ∧
      s.Shows path w' ∧ DiffersIn d v w' ∧
      GroupHolds tidy (fun names => w' (ledgerName :: d :: names)) topics (setRow g p) := by
  have hplain := plain_append hdir (ofNat_plain i)
  have hfile := (h.holds i _ hi).rows p.partition
  have hplace : (partitionFile (l.join (Decimal.ofNat i)) p.partition).path =
      path ++ [ledgerName, d, Decimal.ofNat i, partitionName p.partition] :=
    join_path (join_path hl _) _
  obtain ⟨s, happly, hs⟩ := ht.write hplace (plain_append hplain (partitionName_plain _)) (by simp)
    (h.there i (List.getElem?_eq_some_iff.mp hi).1)
    (by
      rw [hfile]
      cases g p.topic p.partition <;> simp)
    (Utf8.encode (Decimal.ofInt p.offset))
  have hset := h.setRow hi
  rw [rowNode, ← below_update] at hset
  have hin' := hin.update (Decimal.ofNat i) [partitionName p.partition]
    (some (.file (.bytes (Utf8.encode (Decimal.ofInt p.offset)))))
  exact ⟨s, _, .cons ⟨w, topics, g, ht, hin, h.tidied False.elim, hold⟩ happly
    (.nil ⟨_, topics, _, hs, hin', hset.tidied False.elim, hnew⟩), hs, hin', hset⟩

/-- A directory comes up, with the number that is next. -/
theorem makeEntry_passes (ht : t.Shows path v) (hl : l.path = path ++ [ledgerName, d])
    (hdir : Plain [ledgerName, d]) (hthere : v [ledgerName, d] = some .directory)
    (h : GroupHolds tidy (fun names => v (ledgerName :: d :: names)) topics g) (hold : R g) :
    ∃ s w, (t.planDirectory (l.join (Decimal.ofNat topics.length))).failure = none ∧
      t.Passes (t.planDirectory (l.join (Decimal.ofNat topics.length))).steps s
        (GroupShows path v d R) ∧
      s.Shows path w ∧ DiffersIn d v w ∧
      GroupHolds False (fun names => w (ledgerName :: d :: names)) (topics ++ [none]) g := by
  have hfree : v [ledgerName, d, Decimal.ofNat topics.length] = none := h.free
  have hgrown := h.grow fun x => ht.none_below hfree [x]
  rw [← below_update] at hgrown
  have hin := (DiffersIn.refl d v).update (Decimal.ofNat topics.length) [] (some .directory)
  have hopened := ht.opened_child hthere (Decimal.ofNat topics.length)
  have habove : ∀ {other}, other <+: [ledgerName, d] → v other = some .directory := by
    intro other hother
    by_cases heq : other = [ledgerName, d]
    · rw [heq, hthere]
    · exact ht.ancestor hother hthere heq
  have hclear : FileTree.Clear v ([ledgerName, d] ++ [Decimal.ofNat topics.length]) := by
    intro other hother
    rcases List.prefix_concat_iff.mp hother with rfl | hother
    · exact .inl hfree
    · exact .inr (habove hother)
  have hP : FileTree.OpensThrough path v ([ledgerName, d] ++ [Decimal.ofNat topics.length])
      (GroupShows path v d R) := by
    intro other s hother hs
    rcases List.prefix_concat_iff.mp hother with rfl | hother
    · rw [hopened] at hs
      exact ⟨_, _, g, hs, hin, hgrown, hold⟩
    · rw [ht.opened_eq (habove hother)] at hs
      exact ⟨v, topics, g, hs, .refl d v, h.tidied False.elim, hold⟩
  obtain ⟨s, hmade, hpasses, hs⟩ := ht.planDirectory (join_path hl _)
    (plain_append hdir (ofNat_plain topics.length)) hclear hP
  rw [hopened] at hs
  exact ⟨s, _, hmade, hpasses, hs, hin, hgrown⟩

/-- A topic gets a directory, the directory its name, and then the row is written. -/
theorem addTopic_passes (ht : t.Shows path v) (hl : l.path = path ++ [ledgerName, d])
    (hdir : Plain [ledgerName, d]) (hthere : v [ledgerName, d] = some .directory)
    (h : GroupHolds tidy (fun names => v (ledgerName :: d :: names)) topics g)
    (hfresh : some p.topic ∉ topics) (hold : R g) (hnew : R (setRow g p)) :
    ∃ s w, (t.planDirectory (l.join (Decimal.ofNat topics.length))).failure = none ∧
      t.Passes ((t.planDirectory (l.join (Decimal.ofNat topics.length))).steps ++
        [.write (topicNameFile (l.join (Decimal.ofNat topics.length))) (Utf8.encode p.topic),
          record (l.join (Decimal.ofNat topics.length)) p]) s (GroupShows path v d R) ∧
      s.Shows path w ∧ DiffersIn d v w ∧
      GroupHolds tidy (fun names => w (ledgerName :: d :: names)) (topics ++ [some p.topic])
        (setRow g p) := by
  obtain ⟨s, w, hmade, hpasses, hs, hin, hgrown⟩ := makeEntry_passes ht hl hdir hthere h hold
  have hlast : topics.length < (topics ++ [none]).length := by simp
  have hbare := hgrown.holds topics.length none List.getElem?_concat_length
  have hname : (topicNameFile (l.join (Decimal.ofNat topics.length))).path =
      path ++ [ledgerName, d, Decimal.ofNat topics.length, topicFileName] :=
    join_path (join_path hl _) _
  have hplain : Plain [ledgerName, d, Decimal.ofNat topics.length, topicFileName] :=
    plain_append (plain_append hdir (ofNat_plain topics.length)) (by decide)
  obtain ⟨s', happly, hs'⟩ := hs.write hname hplain (by simp) (hgrown.there _ hlast)
    (by
      rw [show w _ = none from hbare topicFileName]
      simp)
    (Utf8.encode p.topic)
  have hnamed := hgrown.name hfresh
  rw [← below_update] at hnamed
  obtain ⟨s'', w', hpasses', hs'', hin', hgroup⟩ := record_passes hs' hl hdir
    (hin.update _ _ _) hnamed List.getElem?_concat_length hold hnew
  refine ⟨s'', w', hmade, hpasses.append (.cons ⟨w, _, g, hs, hin, hgrown, hold⟩ happly hpasses'),
    hs'', hin', hgroup.tidied fun htidy entry hentry => ?_⟩
  rcases List.mem_append.mp hentry with hentry | hentry
  · obtain ⟨topic, partition, heq, hrow⟩ := h.filled htidy entry hentry
    exact ⟨topic, partition, heq, isSome_setRow hrow⟩
  · exact ⟨p.topic, p.partition, List.mem_singleton.mp hentry, by simp [setRow]⟩

end Recording

/-- A tree that shows a view but for the ledger, which has rows with a property. -/
def LedgerShows (root : Location) (v : Path → Option Node)
    (R : (String → Int → Option Int) → Prop) (t : FileTree) : Prop :=
  ∃ w g, t.Shows root.path w ∧ LedgerHolds False (fun names => w (ledgerName :: names)) g ∧
    (∀ names, ¬[ledgerName] <+: names → w names = v names) ∧ R g

/-- With these rows for one digest a ledger that is the same for the others has a property. -/
def Completes (g : String → Int → Option Int) (d : String)
    (R : (String → Int → Option Int) → Prop) (rows : String → Int → Option Int) : Prop :=
  ∃ g', rows = rowsIn g' d ∧ (∀ topic, digest (Utf8.encode topic) ≠ d → g' topic = g topic) ∧ R g'

/-- What the directory of a digest shows, the ledger shows. -/
theorem LedgerShows.of_group {tidy : Prop} {root : Location} {u : Path → Option Node}
    {g : String → Int → Option Int} (h : LedgerHolds tidy (fun names => u (ledgerName :: names)) g)
    (hsame : ∀ names, ¬[ledgerName] <+: names → u names = v names) {d : String}
    {R : (String → Int → Option Int) → Prop}
    (hgroup : GroupShows root.path u d (Completes g d R) t) : LedgerShows root v R t := by
  obtain ⟨w, topics, _, ht, hin, hrows, g', rfl, hg, hR⟩ := hgroup
  exact ⟨w, g', ht, h.untidy.replace hin hrows hg,
    fun names hnames => (hin.outside hnames).trans (hsame names hnames), hR⟩

/-- The directory for the topics with a digest is made sure of first. -/
theorem openGroup_passes {tidy : Prop} {root : Location} {g : String → Int → Option Int}
    (ht : t.Shows root.path v) (h : LedgerHolds tidy (fun names => v (ledgerName :: names)) g)
    (topic : String) {R : (String → Int → Option Int) → Prop} (hold : R g) :
    ∃ s u, (t.planDirectory (group root topic)).failure = none ∧
      t.Passes (t.planDirectory (group root topic)).steps s (LedgerShows root v R) ∧
      s.Shows root.path u ∧ LedgerHolds tidy (fun names => u (ledgerName :: names)) g ∧
      u [ledgerName, digest (Utf8.encode topic)] = some .directory ∧
      (∀ x rest, u (ledgerName :: digest (Utf8.encode topic) :: x :: rest) =
        v (ledgerName :: digest (Utf8.encode topic) :: x :: rest)) ∧
      ∀ names, ¬[ledgerName] <+: names → u names = v names := by
  have houtside : ∀ {other}, other <+: [ledgerName, digest (Utf8.encode topic)] →
      ∀ names, ¬[ledgerName] <+: names → FileTree.opened v other names = v names := by
    intro other hother names hnames
    rw [FileTree.opened]
    split
    · next hpre =>
      have hpre' := hpre.trans hother
      rw [List.prefix_cons_iff] at hpre'
      rcases hpre' with rfl | ⟨rest, rfl, -⟩
      · exact ht.root.symm
      · exact absurd (by simp) hnames
    · rfl
  have hP : FileTree.OpensThrough root.path v [ledgerName, digest (Utf8.encode topic)]
      (LedgerShows root v R) := fun other s hother hs =>
    ⟨_, g, hs, (h.opened hother).untidy, houtside hother, hold⟩
  obtain ⟨s, hmade, hpasses, hs⟩ :=
    ht.planDirectory (group_path root topic) (plain_group topic) (h.clear ht.root _) hP
  exact ⟨s, _, hmade, hpasses, hs, h.opened (List.prefix_refl _),
    FileTree.opened_above (List.prefix_refl _),
    fun x rest => FileTree.opened_other (by simp), houtside (List.prefix_refl _)⟩

/-- Entering a row: while it is under way, its topic may have a directory without it. -/
theorem advance_passes {tidy : Prop} {root : Location} {g : String → Int → Option Int}
    (ht : t.Shows root.path v) (h : LedgerHolds tidy (fun names => v (ledgerName :: names)) g)
    (p : Position)
    (hroom : ∀ topics, GroupHolds tidy
      (fun names => v (ledgerName :: digest (Utf8.encode p.topic) :: names)) topics
      (rowsIn g (digest (Utf8.encode p.topic))) → topics.length ≤ Decimal.maxU32)
    {R : (String → Int → Option Int) → Prop} (hold : R g) (hnew : R (setRow g p)) :
    ∃ s w, (planAdvance t root p).failure = none ∧
      t.Passes (planAdvance t root p).steps s (LedgerShows root v R) ∧
      s.Shows root.path w ∧ LedgerHolds tidy (fun names => w (ledgerName :: names)) (setRow g p) ∧
      ∀ names, ¬[ledgerName] <+: names → w names = v names := by
  have hpath := group_path root p.topic
  have hplain := plain_group p.topic
  have hother : ∀ topic, digest (Utf8.encode topic) ≠ digest (Utf8.encode p.topic) →
      setRow g p topic = g topic := fun topic hd => setRow_other fun heq => hd (heq ▸ rfl)
  obtain ⟨topics, hgroup⟩ := h.groups (digest (Utf8.encode p.topic))
  have hfew := hroom topics hgroup
  obtain ⟨s, u, hmade, hpasses, hs, hu, hthere, hsame, hbefore⟩ :=
    openGroup_passes ht h p.topic hold
  replace hgroup : GroupHolds tidy
      (fun names => u (ledgerName :: digest (Utf8.encode p.topic) :: names)) topics
      (rowsIn g (digest (Utf8.encode p.topic))) := hgroup.congr hsame
  have hrows : Completes g (digest (Utf8.encode p.topic)) R
      (rowsIn g (digest (Utf8.encode p.topic))) := ⟨g, rfl, fun _ _ => rfl, hold⟩
  have hrows' : Completes g (digest (Utf8.encode p.topic)) R
      (setRow (rowsIn g (digest (Utf8.encode p.topic))) p) :=
    ⟨_, (rowsIn_setRow g p).symm, hother, hnew⟩
  obtain ⟨xs, hsub, _, hxs⟩ := subdirectories_ok hs hpath hplain hthere fun x hx => hgroup.plain hx
  rcases findTopic_all hs hpath hplain hgroup hfew p.topic hxs with
    ⟨i, hi, hfind⟩ | ⟨hfresh, hfind⟩
  · obtain ⟨s', w, hpasses', hs', hin, hnext⟩ :=
      record_passes hs hpath hplain (.refl _ u) hgroup hi hrows hrows'
    have hplan : planAdvance t root p = { steps := (t.planDirectory (group root p.topic)).steps ++
        [record ((group root p.topic).join (Decimal.ofNat i)) p] } := by
      simp only [planAdvance, hmade, hpasses.performs, hsub, hfind, Except.bind]
    rw [← rowsIn_setRow] at hnext
    rw [hplan]
    exact ⟨s', w, rfl, hpasses.append (hpasses'.imp fun _ => .of_group hu hbefore), hs',
      hu.replace hin hnext hother,
      fun names hnames => (hin.outside hnames).trans (hbefore names hnames)⟩
  · obtain ⟨s', w, hfreshMade, hpasses', hs', hin, hnext⟩ :=
      addTopic_passes hs hpath hplain hthere hgroup hfresh hrows hrows'
    have hplan : planAdvance t root p = { steps := (t.planDirectory (group root p.topic)).steps ++
        ((s.planDirectory ((group root p.topic).join (Decimal.ofNat topics.length))).steps ++
          [.write (topicNameFile ((group root p.topic).join (Decimal.ofNat topics.length)))
            (Utf8.encode p.topic),
            record ((group root p.topic).join (Decimal.ofNat topics.length)) p]) } := by
      simp only [planAdvance, hmade, hpasses.performs, hsub, hfind, Except.bind, hfreshMade,
        List.append_assoc]
    rw [← rowsIn_setRow] at hnext
    rw [hplan]
    exact ⟨s', w, rfl, hpasses.append (hpasses'.imp fun _ => .of_group hu hbefore), hs',
      hu.replace hin hnext hother,
      fun names hnames => (hin.outside hnames).trans (hbefore names hnames)⟩

end KeyedLog.Disk
