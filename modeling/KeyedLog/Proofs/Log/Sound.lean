import KeyedLog.Decode
import KeyedLog.Log.Change
import KeyedLog.Proofs.Assoc

/-!
# Sound logs

On a log that came about by changes of an empty one, every record lies at the place it names, and
every topic has partitions. A change of the log appends to one partition, or drops the first
records of one.
-/
namespace KeyedLog

namespace Partition

/-- Every record lies at the place it names. -/
structure Sound (p : Partition) (topic : String) (i : Int) : Prop where
  low : 0 ≤ p.low
  placed : ∀ (j : Nat) r, p.records[j]? = some r → r.place = ⟨topic, i, p.low + j⟩

variable {p : Partition} {topic : String} {i : Int} {r : Record}

theorem low_le_high (p : Partition) : p.low ≤ p.high := by
  rw [high]
  omega

@[simp] theorem low_append (p : Partition) (r : Record) : (p.append r).low = p.low := rfl

@[simp] theorem records_append (p : Partition) (r : Record) :
    (p.append r).records = p.records ++ [r] := rfl

@[simp] theorem high_append (p : Partition) (r : Record) : (p.append r).high = p.high + 1 := by
  simp only [high, low_append, records_append, List.length_append, List.length_singleton]
  omega

/-- What a partition drops does not count: the next record gets the offset it would have got. -/
@[simp] theorem high_truncateBefore (p : Partition) (offset : Int) :
    (p.truncateBefore offset).high = p.high := by
  simp only [high, truncateBefore, List.length_drop]
  omega

theorem low_le_truncateBefore (p : Partition) (offset : Int) :
    p.low ≤ (p.truncateBefore offset).low := by
  simp only [truncateBefore]
  omega

theorem mem_of_mem_truncateBefore {offset : Int} (h : r ∈ (p.truncateBefore offset).records) :
    r ∈ p.records :=
  List.mem_of_mem_drop h

theorem sound_empty : Sound {} topic i := ⟨Int.le_refl 0, by simp⟩

namespace Sound

theorem append (h : p.Sound topic i) (hplace : r.place = ⟨topic, i, p.high⟩) :
    (p.append r).Sound topic i where
  low := h.low
  placed := by
    intro j r' hj
    rw [records_append, List.getElem?_append] at hj
    split at hj
    · exact h.placed j r' hj
    · next hlength =>
      rw [List.getElem?_singleton] at hj
      split at hj
      · next hzero =>
        obtain rfl := Option.some.inj hj
        have hj : (j : Int) = p.records.length := by omega
        rw [hplace, low_append, hj, high]
      · cases hj

theorem truncateBefore (h : p.Sound topic i) (offset : Int) :
    (p.truncateBefore offset).Sound topic i where
  low := Int.le_trans h.low (p.low_le_truncateBefore offset)
  placed := by
    intro j r' hj
    simp only [Partition.truncateBefore, List.getElem?_drop] at hj
    rw [h.placed _ r' hj, Position.mk.injEq]
    refine ⟨rfl, rfl, ?_⟩
    simp only [Partition.truncateBefore]
    omega

/-- The place of a retained record. -/
theorem place (h : p.Sound topic i) (hr : r ∈ p.records) :
    r.place = ⟨topic, i, r.offset⟩ ∧ p.low ≤ r.offset ∧ r.offset < p.high := by
  obtain ⟨j, hj⟩ := List.mem_iff_getElem?.mp hr
  have hplace := h.placed j r hj
  have hlength := (List.getElem?_eq_some_iff.mp hj).1
  have hoffset : r.offset = p.low + j := congrArg Position.offset hplace
  rw [hoffset, high]
  exact ⟨hplace, by omega, by omega⟩

theorem getElem?_of_mem (h : p.Sound topic i) (hr : r ∈ p.records) :
    p.records[(r.offset - p.low).toNat]? = some r := by
  obtain ⟨j, hj⟩ := List.mem_iff_getElem?.mp hr
  have hoffset : r.offset = p.low + j := congrArg Position.offset (h.placed j r hj)
  have hindex : (r.offset - p.low).toNat = j := by omega
  rw [hindex, hj]

/-- A look-up finds the record with the offset. -/
theorem get?_eq_some_iff (h : p.Sound topic i) {offset : Int} :
    p.get? offset = some r ↔ r ∈ p.records ∧ r.offset = offset := by
  constructor
  · intro hget
    rw [get?] at hget
    split at hget
    · cases hget
    · have hoffset : r.offset = p.low + (offset - p.low).toNat :=
        congrArg Position.offset (h.placed _ r hget)
      exact ⟨List.mem_of_getElem? hget, by omega⟩
  · rintro ⟨hr, rfl⟩
    rw [get?, if_neg (by have := h.place hr; omega)]
    exact h.getElem?_of_mem hr

theorem eq_of_offset (h : p.Sound topic i) {r' : Record} (hr : r ∈ p.records)
    (hr' : r' ∈ p.records) (hoffset : r.offset = r'.offset) : r = r' := by
  have hget := h.getElem?_of_mem hr
  rw [hoffset, h.getElem?_of_mem hr', Option.some.injEq] at hget
  exact hget.symm

end Sound

theorem get?_eq_none_iff {offset : Int} (hlow : p.low ≤ offset) :
    p.get? offset = none ↔ p.high ≤ offset := by
  rw [get?, if_neg (by omega), List.getElem?_eq_none_iff, high]
  omega

/-- What becomes of a partition that is only appended to. -/
inductive Grows (topic : String) (i : Int) (p : Partition) : Partition → Prop where
  | same : Grows topic i p p
  | append (r : Record) (hplace : r.place = ⟨topic, i, p.high⟩) : Grows topic i p (p.append r)

/-- What becomes of a partition by one change of its log. -/
inductive Changes (topic : String) (i : Int) (p : Partition) : Partition → Prop where
  | grows {q : Partition} (h : Grows topic i p q) : Changes topic i p q
  | truncate (offset : Int) : Changes topic i p (p.truncateBefore offset)

theorem Changes.sound {q : Partition} (h : Changes topic i p q) (hsound : p.Sound topic i) :
    q.Sound topic i := by
  cases h with
  | grows h =>
    cases h with
    | same => exact hsound
    | append r hplace => exact hsound.append hplace
  | truncate offset => exact hsound.truncateBefore offset

theorem Changes.high_le {q : Partition} (h : Changes topic i p q) : p.high ≤ q.high := by
  cases h with
  | grows h =>
    cases h with
    | same => exact Int.le_refl _
    | append r hplace =>
      rw [high_append]
      omega
  | truncate offset => exact Int.le_of_eq (high_truncateBefore p offset).symm

theorem Changes.low_le {q : Partition} (h : Changes topic i p q) : p.low ≤ q.low := by
  cases h with
  | grows h =>
    cases h with
    | same => exact Int.le_refl _
    | append r hplace => exact Int.le_refl _
  | truncate offset => exact p.low_le_truncateBefore offset

theorem Grows.low_eq {q : Partition} (h : Grows topic i p q) : q.low = p.low := by
  cases h with
  | same => rfl
  | append r hplace => rfl

theorem Grows.mem {q : Partition} (h : Grows topic i p q) (hr : r ∈ p.records) :
    r ∈ q.records := by
  cases h with
  | same => exact hr
  | append r' hplace => exact List.mem_append_left _ hr

/-- A record that is new has an offset that none had before. -/
theorem Changes.mem {q : Partition} (h : Changes topic i p q) (hr : r ∈ q.records) :
    r ∈ p.records ∨ r.offset = p.high := by
  cases h with
  | truncate offset => exact .inl (mem_of_mem_truncateBefore hr)
  | grows h =>
    cases h with
    | same => exact .inl hr
    | append r' hplace =>
      rw [records_append, List.mem_append, List.mem_singleton] at hr
      refine hr.imp_right fun heq => ?_
      rw [heq]
      exact congrArg Position.offset hplace

end Partition

/-- Whether a change leaves the retained records of a topic alone. -/
def LogChange.Retains (topic : String) : LogChange → Prop
  | .truncate other _ _ => other ≠ topic
  | _ => True

/-- Whether a change leaves the records of a topic as they are. -/
def LogChange.Spares (topic : String) : LogChange → Prop
  | .append other _ => other ≠ topic
  | .truncate other _ _ => other ≠ topic
  | _ => True

theorem LogChange.Spares.retains {topic : String} {c : LogChange} (h : c.Spares topic) :
    c.Retains topic := by
  cases c with
  | truncate other i offset => exact h
  | _ => trivial

namespace Log

/-- A partition of a topic; one that is not there is empty. -/
def slot (log : Log) (topic : String) (i : Int) : Partition := (log.partition? topic i).getD {}

/-- Every record lies where it says it does, and every topic has partitions. -/
structure Sound (log : Log) : Prop where
  default : 0 < log.defaultPartitions
  partitions : ∀ topic parts, Assoc.get? topic log.topics = some parts → 0 < parts.length
  slots : ∀ topic i, (log.slot topic i).Sound topic i

variable {log : Log} {topic : String} {i : Int}

theorem sound_empty (n : Int) : (empty n).Sound where
  default := by
    simp only [empty]
    omega
  partitions := by
    intro topic parts h
    cases h
  slots := by
    intro topic i
    have hslot : (empty n).slot topic i = {} := by
      rw [slot, partition?]
      split <;> rfl
    rw [hslot]
    exact Partition.sound_empty

/-- A topic is there. -/
def Exists (log : Log) (topic : String) : Prop := (Assoc.get? topic log.topics).isSome

theorem slot_of_neg (h : i < 0) : log.slot topic i = {} := by
  rw [slot, partition?, if_pos h]
  rfl

theorem slot_natCast (n : Nat) :
    log.slot topic n = ((log.partitionsOf topic)[n]?).getD {} := by
  rw [slot, partition?, if_neg (by omega), Int.toNat_natCast]

theorem slot_of_partition? {p : Partition} (h : log.partition? topic i = some p) :
    log.slot topic i = p := by
  rw [slot, h]
  rfl

theorem records_eq : log.records topic i = (log.slot topic i).records := by
  rw [records, slot]
  cases log.partition? topic i <;> rfl

/-- The slots of two logs agree if the partitions of the topic do, where they are not empty. -/
theorem slot_congr {log' : Log}
    (h : ∀ n : Nat, ((log'.partitionsOf topic)[n]?).getD {} =
      ((log.partitionsOf topic)[n]?).getD {}) : log'.slot topic i = log.slot topic i := by
  cases i with
  | ofNat n =>
    rw [Int.ofNat_eq_natCast, slot_natCast, slot_natCast]
    exact h n
  | negSucc n => rw [slot_of_neg (Int.negSucc_lt_zero n), slot_of_neg (Int.negSucc_lt_zero n)]

theorem getD_replicate (count n : Nat) :
    ((List.replicate count ({} : Partition))[n]?).getD {} = {} := by
  rw [List.getElem?_replicate]
  split <;> rfl

theorem partitionsOf_put (name : String) (parts : List Partition) :
    partitionsOf { log with topics := Assoc.put name parts log.topics } topic =
      if topic = name then parts else log.partitionsOf topic := by
  rw [partitionsOf, partitionsOf]
  split
  · next h => rw [h, Assoc.get?_put_self, Option.getD_some]
  · next h => rw [Assoc.get?_put_of_ne h]

/-! ## Creating a topic -/

theorem createTopic_of_none (spec : TopicSpec) (h : Assoc.get? spec.name log.topics = none) :
    ∃ count, (log.Sound → 0 < count) ∧ (log.createTopic spec).2 =
      { log with topics := Assoc.put spec.name (List.replicate count {}) log.topics } := by
  simp only [createTopic, h, Assoc.append_of_get?_none h]
  refine ⟨_, fun hsound => ?_, rfl⟩
  have hdefault := hsound.default
  cases spec.partitions with
  | none => exact hdefault
  | some n =>
    simp only
    split <;> omega

theorem createTopic_of_some {spec : TopicSpec} {parts : List Partition}
    (h : Assoc.get? spec.name log.topics = some parts) : (log.createTopic spec).2 = log := by
  simp only [createTopic, h]

/-- A new topic holds nothing. -/
theorem slot_createTopic (spec : TopicSpec) :
    (log.createTopic spec).2.slot topic i = log.slot topic i := by
  cases h : Assoc.get? spec.name log.topics with
  | some parts => rw [createTopic_of_some h]
  | none =>
    obtain ⟨count, -, hlog⟩ := createTopic_of_none spec h
    rw [hlog]
    apply slot_congr
    intro n
    rw [partitionsOf_put]
    split
    · next heq => rw [getD_replicate, partitionsOf, heq, h]; rfl
    · rfl

theorem exists_createTopic (spec : TopicSpec) : (log.createTopic spec).2.Exists spec.name := by
  cases h : Assoc.get? spec.name log.topics with
  | some parts => simp [createTopic_of_some h, Exists, h]
  | none =>
    obtain ⟨count, -, hlog⟩ := createTopic_of_none spec h
    simp [hlog, Exists]

/-! ## Appending -/

theorem partitionFor_lt (key : Bytes) {count : Nat} (h : 0 < count) :
    partitionFor key count < count := by
  have hcrc := (Digest.crc32 key).toNat_lt
  rw [partitionFor, UInt32.toNat_mod, Nat.toUInt32, UInt32.toNat_ofNat']
  by_cases hzero : count % 2 ^ 32 = 0
  · rw [hzero, Nat.mod_zero]
    omega
  · have hmod := Nat.mod_lt (Digest.crc32 key).toNat (Nat.pos_of_ne_zero hzero)
    have hle := Nat.mod_le count (2 ^ 32)
    omega

/-- The partition that an append goes to. -/
def home (log : Log) (topic : String) (r : Outgoing) : Nat :=
  partitionFor r.key (log.partitionsFor topic).length

/-- The record that an append makes. -/
def appended (log : Log) (topic : String) (r : Outgoing) : Record :=
  ⟨topic, log.home topic r, (log.slot topic (log.home topic r)).high, r.key, r.value, r.headers⟩

theorem getD_partitionsFor (n : Nat) :
    ((log.partitionsFor topic)[n]?).getD {} = log.slot topic n := by
  rw [slot_natCast, partitionsFor, partitionsOf]
  cases Assoc.get? topic log.topics with
  | some parts => rfl
  | none =>
    rw [Option.getD_none, getD_replicate]
    rfl

theorem Sound.home_lt (h : log.Sound) (r : Outgoing) :
    log.home topic r < (log.partitionsFor topic).length := by
  apply partitionFor_lt
  rw [partitionsFor]
  cases hparts : Assoc.get? topic log.topics with
  | some parts => exact h.partitions topic parts hparts
  | none =>
    rw [Option.getD_none, List.length_replicate]
    exact h.default

theorem append_eq (r : Outgoing) : (log.append topic r).2 = { log with
    topics := Assoc.put topic ((log.partitionsFor topic).set (log.home topic r)
      ((log.slot topic (log.home topic r)).append (log.appended topic r))) log.topics } := by
  rw [← getD_partitionsFor]
  simp only [append, appended, home, ← getD_partitionsFor]

/-- An append adds its record to one partition. -/
theorem slot_append (h : log.Sound) (name : String) (r : Outgoing) :
    (log.append name r).2.slot topic i =
      if topic = name ∧ i = log.home name r then (log.slot topic i).append (log.appended name r)
      else log.slot topic i := by
  rw [append_eq]
  cases i with
  | negSucc n =>
    rw [slot_of_neg (Int.negSucc_lt_zero n), slot_of_neg (Int.negSucc_lt_zero n), if_neg]
    rintro ⟨-, hn⟩
    omega
  | ofNat n =>
    simp only [Int.ofNat_eq_natCast, Int.natCast_inj]
    rw [slot_natCast, partitionsOf_put]
    by_cases htopic : topic = name
    · subst htopic
      rw [if_pos rfl, List.getElem?_set]
      by_cases hn : n = log.home topic r
      · subst hn
        rw [if_pos rfl, if_pos (h.home_lt r), if_pos ⟨rfl, rfl⟩]
        rfl
      · rw [if_neg (Ne.symm hn), if_neg (by simp [hn]), getD_partitionsFor]
    · rw [if_neg htopic, if_neg (by simp [htopic]), slot_natCast]

/-! ## Dropping -/

theorem slot_truncateBefore (name : String) (j offset : Int) :
    (log.truncateBefore name j offset).slot topic i =
      if topic = name ∧ i = j then (log.slot topic i).truncateBefore offset
      else log.slot topic i := by
  cases hpart : log.partition? name j with
  | none =>
    simp only [truncateBefore, hpart]
    split
    · next heq =>
      obtain ⟨rfl, rfl⟩ := heq
      simp [slot, hpart, Partition.truncateBefore]
    · rfl
  | some p =>
    simp only [truncateBefore, hpart]
    have hj : 0 ≤ j := by
      by_contra hneg
      rw [partition?, if_pos (by omega)] at hpart
      cases hpart
    obtain ⟨m, rfl⟩ := Int.eq_ofNat_of_zero_le hj
    rw [partition?, if_neg (by omega), Int.toNat_natCast] at hpart
    cases i with
    | negSucc n =>
      rw [slot_of_neg (Int.negSucc_lt_zero n), slot_of_neg (Int.negSucc_lt_zero n), if_neg]
      rintro ⟨-, hn⟩
      omega
    | ofNat n =>
      simp only [Int.ofNat_eq_natCast, Int.toNat_natCast, Int.natCast_inj]
      rw [slot_natCast, partitionsOf_put]
      by_cases htopic : topic = name
      · subst htopic
        rw [if_pos rfl, List.getElem?_set]
        by_cases hn : n = m
        · subst hn
          have hlength := (List.getElem?_eq_some_iff.mp hpart).1
          rw [if_pos rfl, if_pos hlength, if_pos ⟨rfl, rfl⟩, slot_natCast, hpart]
          rfl
        · rw [if_neg (Ne.symm hn), if_neg (by simp [hn]), slot_natCast]
      · rw [if_neg htopic, if_neg (by simp [htopic]), slot_natCast]

/-! ## Any change -/

theorem change_slot (h : log.Sound) (c : LogChange) (topic : String) (i : Int) :
    Partition.Grows topic i (log.slot topic i) ((log.change c).slot topic i) ∨
      ¬c.Retains topic ∧ ∃ offset,
        (log.change c).slot topic i = (log.slot topic i).truncateBefore offset := by
  cases c with
  | create name count =>
    rw [change, slot_createTopic]
    exact .inl .same
  | append name r =>
    rw [change, slot_append h]
    split
    · next heq =>
      obtain ⟨rfl, rfl⟩ := heq
      exact .inl (.append _ rfl)
    · exact .inl .same
  | truncate name j offset =>
    rw [change, slot_truncateBefore]
    split
    · next heq => exact .inr ⟨fun hne => hne heq.1.symm, offset, rfl⟩
    · exact .inl .same
  | reject on => exact .inl .same

theorem changes_slot (h : log.Sound) (c : LogChange) (topic : String) (i : Int) :
    Partition.Changes topic i (log.slot topic i) ((log.change c).slot topic i) := by
  rcases change_slot h c topic i with hgrows | ⟨-, offset, heq⟩
  · exact .grows hgrows
  · rw [heq]
    exact .truncate offset

theorem grows_slot (h : log.Sound) {c : LogChange} (hc : c.Retains topic) (i : Int) :
    Partition.Grows topic i (log.slot topic i) ((log.change c).slot topic i) :=
  (change_slot h c topic i).resolve_right fun hdrop => hdrop.1 hc

theorem change_defaultPartitions (log : Log) (c : LogChange) :
    (log.change c).defaultPartitions = log.defaultPartitions := by
  cases c with
  | create name count =>
    rw [change, createTopic]
    split <;> rfl
  | append name r => rfl
  | truncate name j offset =>
    rw [change, truncateBefore]
    split <;> rfl
  | reject on => rfl

/-- Each change binds one topic at most, to partitions of its own or as many as it had. -/
theorem change_topics (h : log.Sound) (c : LogChange) :
    (log.change c).topics = log.topics ∨
      ∃ name parts, 0 < parts.length ∧
        (log.Exists name → parts.length = (log.partitionsOf name).length) ∧
        (log.change c).topics = Assoc.put name parts log.topics := by
  cases c with
  | create name count =>
    cases hname : Assoc.get? name log.topics with
    | some parts =>
      left
      rw [change, createTopic_of_some hname]
    | none =>
      right
      obtain ⟨width, hwidth, hlog⟩ :=
        createTopic_of_none { TopicSpec.compacted name with partitions := count } hname
      refine ⟨name, List.replicate width {}, ?_, ?_, congrArg topics hlog⟩
      · rw [List.length_replicate]
        exact hwidth h
      · intro hexists
        rw [Exists, hname] at hexists
        cases hexists
  | append name r =>
    right
    refine ⟨name, _, ?_, ?_, congrArg topics (append_eq r)⟩
    · rw [List.length_set]
      exact Nat.zero_lt_of_lt (h.home_lt r)
    · intro hexists
      obtain ⟨parts, hparts⟩ := Option.isSome_iff_exists.mp hexists
      rw [List.length_set, partitionsFor, partitionsOf, hparts]
      rfl
  | truncate name j offset =>
    simp only [change, truncateBefore]
    cases hpart : log.partition? name j with
    | none => exact .inl rfl
    | some p =>
      right
      refine ⟨name, _, ?_, ?_, rfl⟩
      · rw [List.length_set, partitionsOf]
        cases hparts : Assoc.get? name log.topics with
        | some parts => exact h.partitions name parts hparts
        | none => simp [partition?, partitionsOf, hparts] at hpart
      · intro _
        rw [List.length_set]
  | reject on => exact .inl rfl

theorem Sound.change (h : log.Sound) (c : LogChange) : (log.change c).Sound where
  default := by
    rw [change_defaultPartitions]
    exact h.default
  partitions := by
    intro topic parts hparts
    rcases change_topics h c with heq | ⟨name, parts', hpos, -, heq⟩
    · rw [heq] at hparts
      exact h.partitions topic parts hparts
    · rw [heq] at hparts
      by_cases htopic : topic = name
      · rw [htopic, Assoc.get?_put_self, Option.some.injEq] at hparts
        exact hparts ▸ hpos
      · rw [Assoc.get?_put_of_ne htopic] at hparts
        exact h.partitions topic parts hparts
  slots := fun topic i => (changes_slot h c topic i).sound (h.slots topic i)

theorem Sound.changeAll (h : log.Sound) (changes : List LogChange) :
    (log.changeAll changes).Sound := by
  induction changes generalizing log with
  | nil => exact h
  | cons c rest ih => exact ih (h.change c)

theorem Exists.change (hexists : log.Exists topic) (h : log.Sound) (c : LogChange) :
    (log.change c).Exists topic := by
  rcases change_topics h c with heq | ⟨name, parts, -, -, heq⟩
  · rw [Exists, heq]
    exact hexists
  · rw [Exists, heq]
    by_cases htopic : topic = name
    · rw [htopic, Assoc.get?_put_self]
      rfl
    · rw [Assoc.get?_put_of_ne htopic]
      exact hexists

/-! ## Partition numbers -/

/-- The partitions of a topic stay as many as they are. -/
theorem partitionNumbers_change (h : log.Sound) (hexists : log.Exists topic) (c : LogChange) :
    (log.change c).partitionNumbers topic = log.partitionNumbers topic := by
  have hlength : ((log.change c).partitionsOf topic).length = (log.partitionsOf topic).length := by
    rcases change_topics h c with heq | ⟨name, parts, -, hparts, heq⟩
    · rw [partitionsOf, heq, partitionsOf]
    · rw [partitionsOf, heq]
      by_cases htopic : topic = name
      · subst htopic
        rw [Assoc.get?_put_self, Option.getD_some, hparts hexists]
      · rw [Assoc.get?_put_of_ne htopic, partitionsOf]
  rw [partitionNumbers, hlength, partitionNumbers]

theorem length_partitionsOf_change (h : log.Sound) (topic : String) (c : LogChange) :
    (log.partitionsOf topic).length ≤ ((log.change c).partitionsOf topic).length := by
  cases hparts : Assoc.get? topic log.topics with
  | none =>
    rw [partitionsOf, hparts, Option.getD_none, List.length_nil]
    exact Nat.zero_le _
  | some parts =>
    have hexists : log.Exists topic := by
      rw [Exists, hparts]
      rfl
    have hnumbers := congrArg List.length (partitionNumbers_change h hexists c)
    simp only [partitionNumbers, List.length_map, List.length_range] at hnumbers
    exact Nat.le_of_eq hnumbers.symm

theorem mem_partitionNumbers :
    i ∈ log.partitionNumbers topic ↔ 0 ≤ i ∧ i < (log.partitionsOf topic).length := by
  simp only [partitionNumbers, List.mem_map, List.mem_range]
  constructor
  · rintro ⟨n, hn, rfl⟩
    simp only [Int.ofNat_eq_natCast]
    omega
  · rintro ⟨hzero, hlt⟩
    exact ⟨i.toNat, by omega, Int.toNat_of_nonneg hzero⟩

theorem exists_of_mem_partitionNumbers (h : i ∈ log.partitionNumbers topic) :
    log.Exists topic := by
  rw [mem_partitionNumbers, partitionsOf] at h
  rw [Exists]
  cases hparts : Assoc.get? topic log.topics with
  | some parts => rfl
  | none =>
    rw [hparts, Option.getD_none, List.length_nil] at h
    omega

/-- A topic that is there has partitions. -/
theorem Exists.partitionNumbers_ne_nil (hexists : log.Exists topic) (h : log.Sound) :
    log.partitionNumbers topic ≠ [] := by
  obtain ⟨parts, hparts⟩ := Option.isSome_iff_exists.mp hexists
  have hpos := h.partitions topic parts hparts
  have hmem : (0 : Int) ∈ log.partitionNumbers topic := by
    rw [mem_partitionNumbers, partitionsOf, hparts, Option.getD_some]
    omega
  exact List.ne_nil_of_mem hmem

theorem nodup_partitionNumbers (log : Log) (topic : String) :
    (log.partitionNumbers topic).Nodup :=
  List.nodup_range.map fun _ _ h => Int.ofNat.inj h

theorem slot_of_not_mem (h : i ∉ log.partitionNumbers topic) : log.slot topic i = {} := by
  rw [mem_partitionNumbers] at h
  rw [slot, partition?]
  split
  · rfl
  · rw [List.getElem?_eq_none (by omega)]
    rfl

/-- The watermarks of a partition that is there. -/
theorem watermarks_eq_ok {w : Watermarks} (h : log.watermarks topic i = .ok w) :
    w = (log.slot topic i).watermarks := by
  rw [watermarks] at h
  split at h
  · next p hp =>
    rw [slot_of_partition? hp]
    exact (Except.ok.inj h).symm
  · cases h

theorem watermarks_of_mem (h : i ∈ log.partitionNumbers topic) :
    log.watermarks topic i = .ok (log.slot topic i).watermarks := by
  obtain ⟨hzero, hlt⟩ := mem_partitionNumbers.mp h
  have hpart : log.partition? topic i = some (log.partitionsOf topic)[i.toNat] := by
    rw [partition?, if_neg (by omega)]
    exact List.getElem?_eq_getElem (by omega)
  rw [watermarks, hpart, slot_of_partition? hpart]

/-- Only partitions that are there have watermarks. -/
theorem mem_of_watermarks {w : Watermarks} (h : log.watermarks topic i = .ok w) :
    i ∈ log.partitionNumbers topic := by
  rw [watermarks] at h
  split at h
  · next p hp =>
    rw [partition?] at hp
    split at hp
    · cases hp
    · next hzero =>
      have hlength := (List.getElem?_eq_some_iff.mp hp).1
      rw [mem_partitionNumbers]
      omega
  · cases h

end Log

end KeyedLog
