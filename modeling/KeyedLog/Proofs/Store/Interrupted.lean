import KeyedLog.Proofs.Store.Parity
import Mathlib

/-!
# Calls that are cut off

A call changes a tree step by step. However many of its steps are performed before it is cut off,
and however often that has happened before, a store opened on what is left answers every call: as
if the call had not been made, as if it had come to its end, or, where a value was replaced, with
the new value and the correlation id of the old one.
-/
namespace KeyedLog

namespace StoreCall

/-- A call changes what is stored for a key. -/
def Sets : StoreCall → Bytes → Prop
  | .put k _ _, key => k = key
  | .remove k, key => k = key
  | _, _ => False

/-- A call enters a row for a partition of a topic. -/
def Enters : StoreCall → String → Int → Prop
  | .advance p, topic, partition => p.topic = topic ∧ p.partition = partition
  | _, _, _ => False

/-- The steps of a call on a tree; a question has none. -/
def plan (t : FileTree) (root : Location) : StoreCall → FileTree.Plan
  | .put key value correlation => Disk.planPut t root key value correlation
  | .remove key => Disk.planRemove t root key
  | .advance p => Disk.planAdvance t root p
  | .get _ => {}
  | .ledger => {}

/-- What a call leaves of a tree when it is cut off after some of its steps. -/
def cutOff (c : StoreCall) (t : FileTree) (root : Location) (n : Nat) : FileTree :=
  (t.perform ((c.plan t root).steps.take n)).2

end StoreCall

namespace StateStore

/-- A tree that was opened at a root. -/
def onDisk (base : String) : StateStore := { backing := .disk ⟨base, []⟩ }

/-- A call carries its plan out. -/
theorem call_onDisk (base : String) (t : FileTree) (c : StoreCall) :
    ((onDisk base).call t c).2 = (onDisk base, (t.carryOut (c.plan t ⟨base, []⟩)).2) := by
  cases c <;> rfl

end StateStore

/-! ## Contents midway through a call -/

namespace Contents

/-- What a call may have made of the contents when it is cut off. -/
inductive Midway (m : Contents) : StoreCall → Contents → Prop where
  | before {c} : Midway m c m
  | after {c} : Midway m c (m.after c)
  | mixed {key value correlation stored} : m.get? key = some stored →
      Midway m (.put key value correlation) (m.put key ⟨value, stored.correlation⟩)

variable {m m' : Contents} {c : StoreCall}

theorem get?_after_other {key : Bytes} (hkey : ¬c.Sets key) :
    (m.after c).get? key = m.get? key := by
  cases c with
  | put k value correlation => rw [after, get?_put, if_neg (Ne.symm hkey)]
  | remove k => rw [after, get?_remove, if_neg (Ne.symm hkey)]
  | get k => rfl
  | advance p => rfl
  | ledger => rfl

theorem offset?_after_other {topic : String} {partition : Int} (hrow : ¬c.Enters topic partition) :
    (m.after c).offset? topic partition = m.offset? topic partition := by
  cases c with
  | advance p =>
    rw [after, offset?_advance, if_neg]
    rintro ⟨rfl, rfl⟩
    exact hrow ⟨rfl, rfl⟩
  | put k value correlation => rfl
  | remove k => rfl
  | get k => rfl
  | ledger => rfl

namespace Midway

theorem get?_other (h : m.Midway c m') {key : Bytes} (hkey : ¬c.Sets key) :
    m'.get? key = m.get? key := by
  cases h with
  | before => rfl
  | after => exact get?_after_other hkey
  | mixed => rw [get?_put, if_neg (Ne.symm hkey)]

theorem offset?_other (h : m.Midway c m') {topic : String} {partition : Int}
    (hrow : ¬c.Enters topic partition) :
    m'.offset? topic partition = m.offset? topic partition := by
  cases h with
  | before => rfl
  | after => exact offset?_after_other hrow
  | mixed => rfl

/-- A question is answered the same. -/
theorem answers (h : m.Midway c m') {a : StoreAnswer} (ha : m'.Answers c a) : m.Answers c a := by
  cases ha with
  | put => exact .put
  | remove => exact .remove
  | advance => exact .advance
  | get => cases h <;> exact .get
  | ledger hlists => cases h <;> exact .ledger hlists

theorem inRange (h : m.Midway c m') (hm : m.InRange) (hc : c.InRange) : m'.InRange := by
  cases h with
  | before => exact hm
  | after => exact hm.after hc
  | mixed => exact hm

theorem get?_inserted {key value : Bytes} {correlation : String}
    (h : m.Midway (.put key value correlation) m') (hnone : m.get? key = none) :
    m'.get? key = none ∨ m'.get? key = some ⟨value, correlation⟩ := by
  cases h with
  | before => exact .inl hnone
  | after => exact .inr (by rw [Contents.after, get?_put, if_pos rfl])
  | mixed hstored =>
    rw [hnone] at hstored
    cases hstored

theorem get?_overwritten {key value : Bytes} {correlation : String} {stored : StoredValue}
    (h : m.Midway (.put key value correlation) m') (hsome : m.get? key = some stored) :
    m'.get? key = some stored ∨ m'.get? key = some ⟨value, stored.correlation⟩ ∨
      m'.get? key = some ⟨value, correlation⟩ := by
  cases h with
  | before => exact .inl hsome
  | after => exact .inr (.inr (by rw [Contents.after, get?_put, if_pos rfl]))
  | mixed hstored =>
    obtain rfl := Option.some.inj (hsome.symm.trans hstored)
    exact .inr (.inl (by rw [get?_put, if_pos rfl]))

theorem get?_removed {key : Bytes} (h : m.Midway (.remove key) m') :
    m'.get? key = m.get? key ∨ m'.get? key = none := by
  cases h with
  | before => exact .inl rfl
  | after => exact .inr (by rw [Contents.after, get?_remove, if_pos rfl])

theorem offset?_advanced {p : Position} (h : m.Midway (.advance p) m') :
    m'.offset? = m.offset? ∨ m'.offset? p.topic p.partition = some p.offset := by
  cases h with
  | before => exact .inl rfl
  | after => exact .inr (by rw [Contents.after, offset?_advance, if_pos ⟨rfl, rfl⟩])

/-- The call made again makes up for what was left undone. -/
theorem get?_again (h : m.Midway c m') : (m'.after c).get? = (m.after c).get? := by
  cases h with
  | before => rfl
  | after =>
    cases c with
    | put k value correlation =>
      funext key
      simp only [Contents.after, get?_put]
      split <;> rfl
    | remove k =>
      funext key
      simp only [Contents.after, get?_remove]
      split <;> rfl
    | get k => rfl
    | advance p => rfl
    | ledger => rfl
  | mixed =>
    funext key
    simp only [Contents.after, get?_put]
    split <;> rfl

theorem offset?_again (h : m.Midway c m') : (m'.after c).offset? = (m.after c).offset? := by
  cases h with
  | before => rfl
  | after =>
    cases c with
    | advance p =>
      funext topic partition
      simp only [Contents.after, offset?_advance]
      split <;> rfl
    | put k value correlation => rfl
    | remove k => rfl
    | get k => rfl
    | ledger => rfl
  | mixed => rfl

end Midway

theorem Lists.congr {rows : List Position} (h : m.Lists rows) (hsame : m'.offset? = m.offset?) :
    m'.Lists rows where
  ordered := h.ordered
  mem := by
    intro row
    rw [hsame]
    exact h.mem row

end Contents

/-! ## Room -/

namespace Disk

/-- No directory has more slots or topics in it than thirty-two bits can number. -/
structure Spacious (t : FileTree) (root : Location) : Prop where
  slots : ∀ key found, Slot.scan t (leaf root key) = .ok found → found.length < 2 ^ 32
  topics : ∀ topic found, subdirectories t (group root topic) = .ok found → found.length < 2 ^ 32

variable {tidy : Prop} {t : FileTree} {root : Location} {m : Contents}

/-- A tree with fewer entries than thirty-two bits can number is spacious. -/
theorem spacious_of_length (root : Location) (h : t.length < 2 ^ 32) : Spacious t root where
  slots := by
    intro key found hscan
    rw [Slot.scan] at hscan
    cases hlist : t.list (leaf root key).path with
    | error e => simp [hlist] at hscan
    | ok names =>
      simp only [hlist] at hscan
      have hfound := Slot.length_of_scanNames hscan
      have hnames := FileTree.length_of_list hlist
      rw [List.length_nil] at hfound
      omega
  topics := by
    intro topic found hsub
    rw [subdirectories] at hsub
    cases hlist : t.list (group root topic).path with
    | error e => simp [hlist] at hsub
    | ok names =>
      simp only [hlist, Except.ok.injEq] at hsub
      have hnames := FileTree.length_of_list hlist
      rw [← hsub, List.length_map, List.length_mergeSort]
      exact (List.length_filter_le _ names).trans_lt (hnames.trans_lt h)

/-- Every key has a slot of its own. -/
theorem Lies.keys_le (h : Lies tidy t root m) (hspace : Spacious t root) (key : Bytes) :
    (m.keysIn (digest key)).card ≤ Decimal.maxU32 := by
  obtain ⟨v, ht, hkeys, -⟩ := h
  have hslot : ∀ k ∈ m.keysIn (digest key), ∃ n,
      v (leafNames (digest key) ++ [Slot.name n Slot.keyExtension]) = some (.file (.bytes k)) := by
    intro k hk
    obtain ⟨hlive, hd⟩ := Contents.mem_keysIn.mp hk
    obtain ⟨stored, hstored⟩ := Option.isSome_iff_exists.mp hlive
    obtain ⟨n, _, hkeeps⟩ := (hkeys.slots (digest key)).held k stored (by rw [if_pos hd, hstored])
    exact ⟨n, hkeeps.key⟩
  cases hkeys.leaves (digest key) with
  | inl hnone =>
    have hempty : m.keysIn (digest key) = ∅ := by
      apply Finset.eq_empty_of_forall_notMem
      intro k hk
      obtain ⟨n, hn⟩ := hslot k hk
      rw [ht.none_below hnone] at hn
      cases hn
    rw [hempty]
    exact Nat.zero_le _
  | inr hdir =>
    obtain ⟨slots, hscan, _, hmem⟩ :=
      Slot.scan_ok ht (leaf_path root key) (plain_leafNames key) hdir (hkeys.slots _)
    choose! n hn using hslot
    have hcard : (m.keysIn (digest key)).card ≤ slots.toFinset.card := by
      apply Finset.card_le_card_of_injOn n
      · intro k hk
        rw [Finset.mem_coe, List.mem_toFinset, hmem, hn k hk]
        rfl
      · intro a ha b hb heq
        have hfile := hn a ha
        rw [heq, hn b hb] at hfile
        simpa using hfile.symm
    have hlength := hspace.slots key slots hscan
    have := slots.toFinset_card_le
    simp only [Decimal.maxU32]
    omega

/-- Every topic has a directory of its own. -/
theorem Spacious.topics_le (hspace : Spacious t root) {v : Path → Option Node}
    (ht : t.Shows root.path v) {topic : String} {topics : List (Option String)}
    {g : String → Int → Option Int}
    (h : GroupHolds tidy (fun names => v (ledgerName :: digest (Utf8.encode topic) :: names))
      topics g) : topics.length ≤ Decimal.maxU32 := by
  by_cases hnil : topics = []
  · rw [hnil]
    exact Nat.zero_le _
  · have hfirst := h.there 0 (List.length_pos_of_ne_nil hnil)
    have hprefix : [ledgerName, digest (Utf8.encode topic)] <+:
        [ledgerName, digest (Utf8.encode topic), Decimal.ofNat 0] := by
      simp [List.prefix_cons_iff]
    obtain ⟨xs, hsub, _, hxs⟩ := subdirectories_ok ht (group_path root topic) (plain_group topic)
      (ht.ancestor hprefix hfirst (by simp)) fun x hx => h.plain hx
    have hcard : (Finset.range topics.length).card ≤ xs.toFinset.card := by
      apply Finset.card_le_card_of_injOn Decimal.ofNat
      · intro i hi
        rw [Finset.mem_coe, List.mem_toFinset, hxs]
        exact h.there i (Finset.mem_range.mp hi)
      · intro i _ j _ heq
        exact Decimal.ofNat_inj.mp heq
    have hlength := hspace.topics topic _ hsub
    have := xs.toFinset_card_le
    rw [List.length_map] at hlength
    rw [Finset.card_range] at hcard
    simp only [Decimal.maxU32]
    omega

/-! ## The steps of a call -/

theorem Lies.untidy (h : Lies tidy t root m) : Lies False t root m := by
  obtain ⟨v, ht, hkeys, hledger⟩ := h
  exact ⟨v, ht, hkeys, hledger.untidy⟩

/-- Whatever number of its steps a call has performed, there are contents below the root. -/
theorem Lies.passes (h : Lies tidy t root m) (hspace : Spacious t root) (c : StoreCall) :
    ∃ s, (c.plan t root).failure = none ∧
      t.Passes (c.plan t root).steps s (fun u => ∃ m', m.Midway c m' ∧ Lies False u root m') ∧
      Lies tidy s root (m.after c) := by
  cases c with
  | put key value correlation =>
    exact h.put key value correlation (h.keys_le hspace key) .before (fun _ => .mixed) .after
  | remove key => exact h.remove key .before .after
  | advance p => exact h.advance p (fun _ _ ht hgroup => hspace.topics_le ht hgroup) .before .after
  | get key => exact ⟨t, rfl, .nil ⟨m, .before, h.untidy⟩, h⟩
  | ledger => exact ⟨t, rfl, .nil ⟨m, .before, h.untidy⟩, h⟩

/-- The store answers as the contents do. -/
theorem Lies.call {base : String} (h : Lies tidy t ⟨base, []⟩ m) (hm : m.InRange)
    (hspace : Spacious t ⟨base, []⟩) (c : StoreCall) :
    ∃ a s, (StateStore.onDisk base).call t c = (.ok a, .onDisk base, s) ∧ m.Answers c a ∧
      Lies tidy s ⟨base, []⟩ (m.after c) := by
  obtain ⟨s, hmade, hpasses, hs⟩ := h.passes hspace c
  have hdone := hpasses.carryOut hmade
  have hleft := StateStore.call_onDisk base t c
  rw [hdone] at hleft
  have hanswer : ∃ a, ((StateStore.onDisk base).call t c).1 = .ok a ∧ m.Answers c a := by
    cases c with
    | put key value correlation =>
      rw [StoreCall.plan] at hdone
      refine ⟨.done, ?_, .put⟩
      simp only [StateStore.call, StateStore.put, StateStore.onDisk, hdone, Except.map]
    | remove key =>
      rw [StoreCall.plan] at hdone
      refine ⟨.done, ?_, .remove⟩
      simp only [StateStore.call, StateStore.remove, StateStore.onDisk, hdone, Except.map]
    | advance p =>
      rw [StoreCall.plan] at hdone
      refine ⟨.done, ?_, .advance⟩
      simp only [StateStore.call, StateStore.advance, StateStore.onDisk, hdone, Except.map]
    | get key =>
      refine ⟨.found (m.get? key), ?_, .get⟩
      simp only [StateStore.call, StateStore.get?, StateStore.onDisk, h.retrieve key, Except.map]
    | ledger =>
      obtain ⟨rows, hrows, hlists⟩ := h.ledger hm
      refine ⟨.rows rows, ?_, .ledger hlists⟩
      simp only [StateStore.call, StateStore.ledger, StateStore.onDisk, hrows, Except.map]
  obtain ⟨a, hok, ha⟩ := hanswer
  exact ⟨a, s, Prod.ext hok hleft, ha, hs⟩

theorem Lies.get? {base : String} (h : Lies tidy t ⟨base, []⟩ m) (key : Bytes) :
    (StateStore.onDisk base).get? t key = .ok (m.get? key) :=
  h.retrieve key

theorem Lies.rows {base : String} (h : Lies tidy t ⟨base, []⟩ m) (hm : m.InRange) :
    ∃ rows, (StateStore.onDisk base).ledger t = .ok rows ∧ m.Lists rows :=
  h.ledger hm

/-- A store that is opened again changes nothing. -/
theorem Lies.openDisk {base : String} (h : Lies tidy t ⟨base, []⟩ m) :
    StateStore.openDisk t base = (.ok (.onDisk base), t) := by
  simp only [StateStore.openDisk, h.planOpen]
  rfl

/-! ## The trees that come up -/

/-- The trees that come up below a root that was empty at first, by calls that come to their end
and calls that are cut off. -/
inductive Reached (base : String) : FileTree → Prop where
  | empty {t : FileTree} : t.WellFormed →
      t.isEmptyDirectory (Location.path ⟨base, []⟩) = true → Reached base t
  | call {t : FileTree} {c : StoreCall} : Reached base t → Spacious t ⟨base, []⟩ → c.InRange →
      Reached base ((StateStore.onDisk base).call t c).2.2
  | cutOff {t : FileTree} {c : StoreCall} (n : Nat) : Reached base t → Spacious t ⟨base, []⟩ →
      c.InRange → Reached base (c.cutOff t ⟨base, []⟩ n)
  | reopen {t : FileTree} : Reached base t → Reached base (StateStore.openDisk t base).2
  | relist {t s : FileTree} : Reached base t → t.Perm s → Reached base s

/-- In every such tree there are contents below the root. -/
theorem Reached.lies {base : String} (h : Reached base t) :
    ∃ m, Lies False t ⟨base, []⟩ m ∧ m.InRange := by
  induction h with
  | empty hwell hempty => exact ⟨{}, .of_empty hwell hempty, Contents.fits_empty.ranges⟩
  | @call t c _ hspace hc ih =>
    obtain ⟨m, hlies, hm⟩ := ih
    obtain ⟨a, s, hcall, -, hs⟩ := hlies.call hm hspace c
    rw [hcall]
    exact ⟨m.after c, hs, hm.after hc⟩
  | @cutOff t c n _ hspace hc ih =>
    obtain ⟨m, hlies, hm⟩ := ih
    obtain ⟨_, -, hpasses, -⟩ := hlies.passes hspace c
    obtain ⟨m', hmidway, hlies'⟩ := hpasses.throughout n
    exact ⟨m', hlies', hmidway.inRange hm hc⟩
  | reopen _ ih =>
    obtain ⟨m, hlies, hm⟩ := ih
    rw [hlies.openDisk]
    exact ⟨m, hlies, hm⟩
  | relist _ hperm ih =>
    obtain ⟨m, hlies, hm⟩ := ih
    exact ⟨m, hlies.perm hperm, hm⟩

end Disk

/-- What a store tells that is opened on the tree a call has left when it was cut off, and once the
call has been made again. -/
structure StateStore.Recovers (base : String) (t : FileTree) (c : StoreCall) (cut : FileTree) :
    Prop where
  opens : openDisk cut base = (.ok (onDisk base), cut)
  answers : Disk.Spacious cut ⟨base, []⟩ → ∀ c' : StoreCall, c'.InRange →
    ∃ a, ((onDisk base).call cut c').1 = .ok a
  values : ∀ key, ∃ stored stored', (onDisk base).get? t key = .ok stored ∧
    (onDisk base).get? cut key = .ok stored' ∧ (¬c.Sets key → stored' = stored)
  rows : ∃ rows rows', (onDisk base).ledger t = .ok rows ∧ (onDisk base).ledger cut = .ok rows' ∧
    ∀ row, ¬c.Enters row.topic row.partition → (row ∈ rows' ↔ row ∈ rows)
  /-- A key that had no value has none or all of the new one. -/
  inserted : ∀ key value correlation, c = .put key value correlation →
    (onDisk base).get? t key = .ok none →
      (onDisk base).get? cut key = .ok none ∨
        (onDisk base).get? cut key = .ok (some ⟨value, correlation⟩)
  /-- A key that had a value has one, and the new correlation id only with the new value. -/
  overwritten : ∀ key value correlation stored, c = .put key value correlation →
    (onDisk base).get? t key = .ok (some stored) →
      (onDisk base).get? cut key = .ok (some stored) ∨
        (onDisk base).get? cut key = .ok (some ⟨value, stored.correlation⟩) ∨
        (onDisk base).get? cut key = .ok (some ⟨value, correlation⟩)
  removed : ∀ key, c = .remove key →
    (onDisk base).get? cut key = (onDisk base).get? t key ∨ (onDisk base).get? cut key = .ok none
  advanced : ∀ p, c = .advance p → ∃ rows rows', (onDisk base).ledger t = .ok rows ∧
    (onDisk base).ledger cut = .ok rows' ∧
    (rows' = rows ∨ ∀ row, c.Enters row.topic row.partition → (row ∈ rows' ↔ row = p))
  /-- Made again, the call leaves what it leaves when nothing cuts it off. -/
  again : Disk.Spacious cut ⟨base, []⟩ → ∃ a whole twice,
    (onDisk base).call t c = (.ok a, onDisk base, whole) ∧
    (onDisk base).call cut c = (.ok a, onDisk base, twice) ∧
    (∀ key, (onDisk base).get? twice key = (onDisk base).get? whole key) ∧
    (onDisk base).ledger twice = (onDisk base).ledger whole

section Recovering

variable {base : String} {t cut : FileTree} {m m' : Contents} {c : StoreCall}

/-- A call that is made again leaves the contents it would have left in the first place. -/
theorem Disk.Lies.again (ht : Disk.Lies False t ⟨base, []⟩ m) (hm : m.InRange)
    (hspace : Disk.Spacious t ⟨base, []⟩) (hc : c.InRange) (hmid : m.Midway c m')
    (hcut : Disk.Lies False cut ⟨base, []⟩ m') (hspace' : Disk.Spacious cut ⟨base, []⟩) :
    ∃ a whole twice, (StateStore.onDisk base).call t c = (.ok a, .onDisk base, whole) ∧
      (StateStore.onDisk base).call cut c = (.ok a, .onDisk base, twice) ∧
      (∀ key, (StateStore.onDisk base).get? twice key = (StateStore.onDisk base).get? whole key) ∧
      (StateStore.onDisk base).ledger twice = (StateStore.onDisk base).ledger whole := by
  have hm' := hmid.inRange hm hc
  obtain ⟨a, whole, hcall, ha, hwhole⟩ := ht.call hm hspace c
  obtain ⟨a', twice, hcall', ha', htwice⟩ := hcut.call hm' hspace' c
  obtain rfl := ha.unique (hmid.answers ha')
  obtain ⟨rows, hrows, hlists⟩ := hwhole.rows (hm.after hc)
  obtain ⟨rows', hrows', hlists'⟩ := htwice.rows (hm'.after hc)
  refine ⟨a, whole, twice, hcall, hcall', fun key => ?_, ?_⟩
  · rw [htwice.get?, hwhole.get?, hmid.get?_again]
  · rw [hrows, hrows', hlists'.unique (hlists.congr hmid.offset?_again)]

theorem Disk.Lies.recovered (ht : Disk.Lies False t ⟨base, []⟩ m) (hm : m.InRange)
    (hspace : Disk.Spacious t ⟨base, []⟩) (hc : c.InRange) (hmid : m.Midway c m')
    (hcut : Disk.Lies False cut ⟨base, []⟩ m') : StateStore.Recovers base t c cut := by
  have hm' := hmid.inRange hm hc
  obtain ⟨rows, hrows, hlists⟩ := ht.rows hm
  obtain ⟨rows', hrows', hlists'⟩ := hcut.rows hm'
  constructor
  · exact hcut.openDisk
  · intro hspace' c' _
    obtain ⟨a, _, hcall, -, -⟩ := hcut.call hm' hspace' c'
    exact ⟨a, by rw [hcall]⟩
  · exact fun key => ⟨_, _, ht.get? key, hcut.get? key, hmid.get?_other⟩
  · refine ⟨rows, rows', hrows, hrows', fun row hrow => ?_⟩
    rw [hlists'.mem, hlists.mem, hmid.offset?_other hrow]
  · rintro key value correlation rfl hnone
    rw [ht.get?, Except.ok.injEq] at hnone
    rw [hcut.get?]
    exact (hmid.get?_inserted hnone).imp (congrArg _) (congrArg _)
  · rintro key value correlation stored rfl hsome
    rw [ht.get?, Except.ok.injEq] at hsome
    rw [hcut.get?]
    exact (hmid.get?_overwritten hsome).imp (congrArg _) (Or.imp (congrArg _) (congrArg _))
  · rintro key rfl
    rw [ht.get?, hcut.get?]
    exact hmid.get?_removed.imp (congrArg _) (congrArg _)
  · rintro p rfl
    refine ⟨rows, rows', hrows, hrows', hmid.offset?_advanced.imp ?_ ?_⟩
    · exact fun hsame => hlists'.unique (hlists.congr hsame)
    · rintro hrow ⟨_, _, offset⟩ ⟨rfl, rfl⟩
      rw [hlists'.mem, hrow, Option.some.injEq]
      constructor
      · rintro rfl
        rfl
      · exact fun heq => (congrArg Position.offset heq).symm
  · exact fun hspace' => ht.again hm hspace hc hmid hcut hspace'

end Recovering

/-- On every tree that calls have left below a root, however many of them were cut off, a call may
be cut off after any number of its steps. -/
theorem Disk.Reached.recovers {base : String} {t : FileTree} (h : Disk.Reached base t)
    (hspace : Disk.Spacious t ⟨base, []⟩) {c : StoreCall} (hc : c.InRange) (n : Nat) :
    StateStore.Recovers base t c (c.cutOff t ⟨base, []⟩ n) := by
  obtain ⟨m, hlies, hm⟩ := h.lies
  obtain ⟨_, -, hpasses, -⟩ := hlies.passes hspace c
  obtain ⟨m', hmid, hcut⟩ := hpasses.throughout n
  exact hlies.recovered hm hspace hc hmid hcut

/-- A value is replaced, but not its correlation id, in the slot an insertion left behind that was
itself cut off before its last step. -/
theorem Disk.Reached.recovers_replaced :
    StateStore.Recovers "" ((StoreCall.put [1] [7] "a").cutOff [] ⟨"", []⟩ 4) (.put [1] [8] "b")
      ((StoreCall.put [1] [8] "b").cutOff
        ((StoreCall.put [1] [7] "a").cutOff [] ⟨"", []⟩ 4) ⟨"", []⟩ 1) := by
  have hempty : FileTree.isEmptyDirectory [] (Location.path ⟨"", []⟩) = true := by cbv
  have hlength : ((StoreCall.put [1] [7] "a").cutOff [] ⟨"", []⟩ 4).length = 4 := by cbv
  apply Disk.Reached.recovers
  · apply Disk.Reached.cutOff 4 (.empty FileTree.wellFormed_nil hempty)
    · exact Disk.spacious_of_length _ (by decide)
    · trivial
  · apply Disk.spacious_of_length
    rw [hlength]
    decide
  · trivial

end KeyedLog
