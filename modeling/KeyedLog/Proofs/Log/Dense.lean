import KeyedLog.Proofs.Log.Carrying

/-!
# A dense log

Whatever topics are created, however many partitions are asked for, and whatever is appended, sent
and dropped: each partition retains the last of the records that were appended to it, their offsets
count on from the low watermark, and all records of a key are in one partition.
-/
namespace KeyedLog

/-- A call on a log: one of those that change it, or a record that a publisher hands over. -/
inductive LogCall where
  | change (c : LogChange)
  | send (topic : String) (record : Outgoing)
  deriving DecidableEq, Repr

/-- Whether the number of partitions that a call asks for is one of 32 bits. -/
def LogCall.InRange : LogCall → Prop
  | .change (.create _ (some count)) => count ≤ Decimal.maxI32
  | _ => True

/-- Of the records whose offsets count on, dropping leaves just those from the offset on. -/
theorem Partition.Sound.records_truncateBefore {p : Partition} {topic : String} {i : Int}
    (h : p.Sound topic i) (offset : Int) :
    (p.truncateBefore offset).records = p.records.filter fun r => offset ≤ r.offset := by
  obtain ⟨k, hk⟩ : ∃ k, k = min (offset - p.low).toNat p.records.length := ⟨_, rfl⟩
  have hgone : ∀ r ∈ p.records.take k, ¬decide (offset ≤ r.offset) = true := by
    intro r hr
    obtain ⟨j, hj⟩ := List.mem_iff_getElem?.mp hr
    rw [List.getElem?_take] at hj
    split at hj
    · have hoffset : r.offset = p.low + j := congrArg Position.offset (h.placed j r hj)
      rw [decide_eq_true_iff]
      omega
    · cases hj
  have hleft : ∀ r ∈ p.records.drop k, decide (offset ≤ r.offset) = true := by
    intro r hr
    obtain ⟨j, hj⟩ := List.mem_iff_getElem?.mp hr
    rw [List.getElem?_drop] at hj
    have hlength := (List.getElem?_eq_some_iff.mp hj).1
    have hoffset : r.offset = p.low + (k + j : Nat) := congrArg Position.offset (h.placed _ r hj)
    rw [decide_eq_true_iff]
    omega
  calc (p.truncateBefore offset).records
      = p.records.drop k := by rw [hk]; rfl
    _ = (p.records.take k).filter (fun r => offset ≤ r.offset) ++
          (p.records.drop k).filter (fun r => offset ≤ r.offset) := by
        rw [List.filter_eq_nil_iff.mpr hgone, List.filter_eq_self.mpr hleft, List.nil_append]
    _ = p.records.filter fun r => offset ≤ r.offset := by
        rw [← List.filter_append, List.take_append_drop]

namespace Log

variable {log : Log} {topic : String}

/-- A record at the place that an append of it tells. -/
def noted (log : Log) (topic : String) (r : Outgoing) : Record :=
  let place := (log.append topic r).1
  ⟨topic, place.1, place.2, r.key, r.value, r.headers⟩

theorem append_place (r : Outgoing) : (log.append topic r).1 =
    (((log.home topic r : Nat) : Int), (log.slot topic (log.home topic r)).high) := by
  rw [← getD_partitionsFor]
  simp only [append, home]

theorem noted_eq (r : Outgoing) : log.noted topic r = log.appended topic r := by
  simp only [noted, append_place, appended]

/-- Only a topic that is created with a count of its own gets another number of partitions than an
append to it would have found. -/
theorem width_change_cases (log : Log) (c : LogChange) (topic : String) :
    (log.change c).width topic = log.width topic ∨
      ∃ count, c = .create topic (some count) ∧ 0 < count ∧
        (log.change c).width topic = count.toNat := by
  cases c with
  | create name requested =>
    cases hname : Assoc.get? name log.topics with
    | some parts =>
      left
      rw [change, createTopic_of_some hname]
    | none =>
      simp only [change, createTopic, TopicSpec.compacted, hname, Assoc.append_of_get?_none hname]
      by_cases htopic : topic = name
      · subst htopic
        simp only [width, partitionsFor, Assoc.get?_put_self, Option.getD_some,
          List.length_replicate, hname, Option.getD_none]
        cases requested with
        | none => exact .inl rfl
        | some count =>
          by_cases hcount : 0 < count
          · exact .inr ⟨count, rfl, hcount, if_pos hcount⟩
          · exact .inl (if_neg hcount)
      · left
        simp only [width, partitionsFor, Assoc.get?_put_of_ne htopic]
  | append name r =>
    left
    by_cases htopic : topic = name
    · subst htopic
      exact width_append r
    · rw [change, append_eq]
      simp only [width, partitionsFor, Assoc.get?_put_of_ne htopic]
  | truncate name j offset =>
    left
    simp only [change, truncateBefore]
    cases hpart : log.partition? name j with
    | none => rfl
    | some p =>
      by_cases htopic : topic = name
      · subst htopic
        simp only [width, partitionsFor, Assoc.get?_put_self, Option.getD_some, List.length_set]
        cases hparts : Assoc.get? topic log.topics with
        | some parts => simp [partitionsOf, hparts]
        | none => simp [partition?, partitionsOf, hparts] at hpart
      · simp only [width, partitionsFor, Assoc.get?_put_of_ne htopic]
  | reject on => exact .inl rfl

theorem toUInt32_ne_zero {count : Nat} (hpos : 0 < count) (hle : (count : Int) ≤ Decimal.maxI32) :
    count.toUInt32 ≠ 0 := by
  intro hzero
  have htoNat := congrArg UInt32.toNat hzero
  rw [Nat.toUInt32, UInt32.toNat_ofNat', UInt32.toNat_zero] at htoNat
  simp only [Decimal.maxI32] at hle
  omega

/-- What an append does: the record goes to the end of the partition of its key, and gets the
offset that was next there. -/
structure Appends (log : Log) (topic : String) (r : Outgoing) : Prop where
  home : (log.append topic r).1.1 = partitionFor r.key (log.partitionsFor topic).length
  there : (log.append topic r).1.1 ∈ (log.append topic r).2.partitionNumbers topic
  offset : (log.append topic r).1.2 = (log.slot topic (log.append topic r).1.1).high
  grown : (log.append topic r).2.slot topic (log.append topic r).1.1 =
    (log.slot topic (log.append topic r).1.1).append (log.noted topic r)
  raised : ((log.append topic r).2.slot topic (log.append topic r).1.1).high =
    (log.slot topic (log.append topic r).1.1).high + 1
  others : ∀ other i, (other, i) ≠ (topic, (log.append topic r).1.1) →
    (log.append topic r).2.slot other i = log.slot other i
  /-- A topic that was not there gets as many partitions as a topic has by default. -/
  made : ¬log.Exists topic →
    ((log.append topic r).2.partitionsOf topic).length = log.defaultPartitions

/-- What dropping does: the records below the offset, which come first, are gone, and the next
record gets the offset it would have got. -/
structure Drops (log : Log) (topic : String) (i offset : Int) : Prop where
  head : ∃ dropped, log.records topic i =
    dropped ++ (log.truncateBefore topic i offset).records topic i ∧
      ((log.truncateBefore topic i offset).slot topic i).low =
        (log.slot topic i).low + dropped.length
  kept : (log.truncateBefore topic i offset).records topic i =
    (log.records topic i).filter fun r => offset ≤ r.offset
  high : ((log.truncateBefore topic i offset).slot topic i).high = (log.slot topic i).high
  low : (log.slot topic i).low ≤ ((log.truncateBefore topic i offset).slot topic i).low
  others : ∀ other j, (other, j) ≠ (topic, i) →
    (log.truncateBefore topic i offset).slot other j = log.slot other j

/-- What creating a topic does: one that is there stays as it is. One that is not gets the number of
partitions it asks for, or that of the log if it asks for none, and holds no record. -/
structure Creates (log : Log) (spec : TopicSpec) : Prop where
  told : (log.createTopic spec).1 = .alreadyExists ↔ log.Exists spec.name
  there : (log.createTopic spec).2.Exists spec.name
  kept : log.Exists spec.name → (log.createTopic spec).2 = log
  asked : ¬log.Exists spec.name → ∀ count, spec.partitions = some count → 0 < count →
    ((log.createTopic spec).2.partitionsOf spec.name).length = count
  unasked : ¬log.Exists spec.name → (∀ count, spec.partitions = some count → count ≤ 0) →
    ((log.createTopic spec).2.partitionsOf spec.name).length = log.defaultPartitions
  empty : ¬log.Exists spec.name → ∀ i, (log.createTopic spec).2.slot spec.name i = {}
  others : ∀ other, other ≠ spec.name →
    ((log.createTopic spec).2.Exists other ↔ log.Exists other) ∧
      (log.createTopic spec).2.partitionsOf other = log.partitionsOf other

theorem creates (log : Log) (spec : TopicSpec) : log.Creates spec := by
  have hthere : (log.createTopic spec).2.Exists spec.name := exists_createTopic spec
  cases hname : Assoc.get? spec.name log.topics with
  | some parts =>
    have hexists : log.Exists spec.name := Option.isSome_iff_exists.mpr ⟨parts, hname⟩
    have hsame := createTopic_of_some hname
    have htold : (log.createTopic spec).1 = .alreadyExists := by simp only [createTopic, hname]
    exact {
      told := iff_of_true htold hexists
      there := hthere
      kept := fun _ => hsame
      asked := fun hnot => absurd hexists hnot
      unasked := fun hnot => absurd hexists hnot
      empty := fun hnot => absurd hexists hnot
      others := fun _ _ => hsame.symm ▸ ⟨Iff.rfl, rfl⟩ }
  | none =>
    have hnot : ¬log.Exists spec.name := by simp [Exists, hname]
    have htold : (log.createTopic spec).1 = .created := by simp only [createTopic, hname]
    refine ⟨iff_of_false (by simp [htold]) hnot, hthere, fun h => absurd h hnot, ?_, ?_, ?_, ?_⟩
    · intro _ count hcount hpos
      simp only [createTopic, hname, hcount, if_pos hpos, Assoc.append_of_get?_none hname,
        partitionsOf, Assoc.get?_put_self, Option.getD_some, List.length_replicate]
      omega
    · intro _ hnone
      simp only [createTopic, hname, Assoc.append_of_get?_none hname, partitionsOf,
        Assoc.get?_put_self, Option.getD_some, List.length_replicate]
      cases hcount : spec.partitions with
      | none => rfl
      | some count => exact if_neg (Int.not_lt.mpr (hnone count hcount))
    · intro _ i
      rw [slot_createTopic, slot_of_not_mem fun hmem => hnot (exists_of_mem_partitionNumbers hmem)]
    · intro other hother
      simp only [createTopic, hname, Assoc.append_of_get?_none hname, Exists, partitionsOf,
        Assoc.get?_put_of_ne hother, true_and]

theorem Sound.appends (h : log.Sound) (topic : String) (r : Outgoing) : log.Appends topic r := by
  have hslot : ∀ other i, (log.append topic r).2.slot other i =
      if other = topic ∧ i = log.home topic r then
        (log.slot other i).append (log.appended topic r)
      else log.slot other i := fun _ _ => slot_append h topic r
  constructor
  · rw [append_place]
    rfl
  · rw [append_place, mem_partitionNumbers, append_eq, partitionsOf_put,
      if_pos rfl, List.length_set]
    have hlt : log.home topic r < (log.partitionsFor topic).length := h.home_lt r
    omega
  · rw [append_place]
  · rw [append_place, hslot, if_pos ⟨rfl, rfl⟩, noted_eq]
  · rw [append_place, hslot, if_pos ⟨rfl, rfl⟩, Partition.high_append]
  · intro other i hne
    rw [append_place] at hne
    rw [hslot, if_neg]
    rintro ⟨rfl, rfl⟩
    exact hne rfl
  · intro hnot
    have hnone : Assoc.get? topic log.topics = none := by simpa [Exists] using hnot
    rw [append_eq, partitionsOf_put, if_pos rfl, List.length_set, partitionsFor, hnone,
      Option.getD_none, List.length_replicate]

theorem Sound.drops (h : log.Sound) (topic : String) (i offset : Int) :
    log.Drops topic i offset := by
  have hslot : ∀ other j, (log.truncateBefore topic i offset).slot other j =
      if other = topic ∧ j = i then (log.slot other j).truncateBefore offset
      else log.slot other j := fun _ _ => slot_truncateBefore topic i offset
  constructor
  · rw [records_eq, records_eq, hslot, if_pos ⟨rfl, rfl⟩]
    refine ⟨_, (List.take_append_drop _ _).symm, ?_⟩
    rw [List.length_take, Nat.min_eq_left (Nat.min_le_right _ _)]
    rfl
  · rw [records_eq, records_eq, hslot, if_pos ⟨rfl, rfl⟩]
    exact (h.slots topic i).records_truncateBefore offset
  · rw [hslot, if_pos ⟨rfl, rfl⟩, Partition.high_truncateBefore]
  · rw [hslot, if_pos ⟨rfl, rfl⟩]
    exact Partition.low_le_truncateBefore _ _
  · intro other j hne
    rw [hslot, if_neg]
    rintro ⟨rfl, rfl⟩
    exact hne rfl

end Log

/-- A log, and all records that were ever appended to it, also those dropped since. -/
structure Archive where
  log : Log
  appended : List Record := []

namespace Archive

variable {a : Archive} {topic : String} {i : Int}

/-- The records that a change appends. -/
def additions (log : Log) : LogChange → List Record
  | .append topic r => [log.noted topic r]
  | .create _ _ | .truncate _ _ _ | .reject _ => []

def after (a : Archive) : LogCall → Archive
  | .change c => ⟨a.log.change c, a.appended ++ additions a.log c⟩
  | .send topic r =>
    match a.log.send topic r with
    | .ok log => ⟨log, a.appended ++ [a.log.noted topic r]⟩
    | .error _ => a

def afterAll (a : Archive) (calls : List LogCall) : Archive := calls.foldl after a

/-- A new log, after some calls. -/
def run (n : Int) (calls : List LogCall) : Archive := afterAll ⟨Log.empty n, []⟩ calls

/-- All records that were ever appended to one partition. -/
def appendedTo (a : Archive) (topic : String) (i : Int) : List Record :=
  a.appended.filter fun r => r.topic = topic ∧ r.partition = i

/-- A send is an append, unless it is refused. -/
theorem after_send (a : Archive) (topic : String) (r : Outgoing) :
    a.after (.send topic r) = a ∨
      a.after (.send topic r) = a.after (.change (.append topic r)) := by
  simp only [after, Log.send]
  cases a.log.rejecting with
  | true => exact .inl rfl
  | false => exact .inr rfl

/-- The log is sound and has no more partitions anywhere than can be counted, and what was appended
went where its key belongs. -/
structure Kept (a : Archive) : Prop where
  sound : a.log.Sound
  narrow : ∀ topic, (a.log.width topic : Int) ≤ Decimal.maxI32
  suffix : ∀ topic i, (a.log.slot topic i).records <:+ a.appendedTo topic i
  homes : ∀ r ∈ a.appended, a.log.Exists r.topic ∧
    r.partition = Log.partitionFor r.key (a.log.width r.topic)

theorem kept_empty {n : Int} (hn : n ≤ Decimal.maxI32) : Kept ⟨Log.empty n, []⟩ where
  sound := Log.sound_empty n
  narrow := by
    intro topic
    have hwidth : (Log.empty n).width topic = (max n 1).toNat := List.length_replicate
    rw [hwidth]
    simp only [Decimal.maxI32] at hn ⊢
    omega
  suffix := by
    intro topic i
    rw [Log.slot_of_not_mem List.not_mem_nil]
    exact List.suffix_refl _
  homes := nofun

theorem appendedTo_after (a : Archive) (c : LogChange) :
    (a.after (.change c)).appendedTo topic i = a.appendedTo topic i ++
      (additions a.log c).filter fun r => r.topic = topic ∧ r.partition = i :=
  List.filter_append _ _

theorem Kept.suffix_change (h : a.Kept) (c : LogChange) (topic : String) (i : Int) :
    ((a.log.change c).slot topic i).records <:+ (a.after (.change c)).appendedTo topic i := by
  rw [appendedTo_after]
  cases c with
  | create name count =>
    rw [Log.change, Log.slot_createTopic, additions, List.filter_nil, List.append_nil]
    exact h.suffix topic i
  | append name r =>
    rw [Log.change, Log.slot_append h.sound, additions, Log.noted_eq]
    split
    · next heq =>
      obtain ⟨rfl, rfl⟩ := heq
      rw [List.filter_cons_of_pos (by simp [Log.appended]), List.filter_nil]
      obtain ⟨dropped, hdropped⟩ := h.suffix topic (a.log.home topic r)
      exact ⟨dropped, by rw [Partition.records_append, ← List.append_assoc, hdropped]⟩
    · next hne =>
      rw [List.filter_cons_of_neg, List.filter_nil, List.append_nil]
      · exact h.suffix topic i
      · rw [decide_eq_true_iff]
        exact fun heq => hne ⟨heq.1.symm, heq.2.symm⟩
  | truncate name j offset =>
    rw [Log.change, Log.slot_truncateBefore, additions, List.filter_nil, List.append_nil]
    split
    · exact (List.drop_suffix _ _).trans (h.suffix topic i)
    · exact h.suffix topic i
  | reject on =>
    rw [additions, List.filter_nil, List.append_nil]
    exact h.suffix topic i

theorem Kept.change (h : a.Kept) {c : LogChange} (hc : LogCall.InRange (.change c)) :
    (a.after (.change c)).Kept where
  sound := h.sound.change c
  narrow := by
    intro topic
    rcases a.log.width_change_cases c topic with heq | ⟨count, rfl, hpos, heq⟩
    · rw [after, heq]
      exact h.narrow topic
    · have hcount : count ≤ Decimal.maxI32 := hc
      rw [after, heq]
      omega
  suffix := h.suffix_change c
  homes := by
    intro r hr
    have hold : ∀ r ∈ a.appended, (a.log.change c).Exists r.topic ∧
        r.partition = Log.partitionFor r.key ((a.log.change c).width r.topic) := by
      intro r hr
      obtain ⟨hexists, hhome⟩ := h.homes r hr
      exact ⟨hexists.change h.sound c, by rw [Log.width_change h.sound hexists, hhome]⟩
    rw [after, List.mem_append] at hr
    cases hr with
    | inl hr => exact hold r hr
    | inr hr =>
      cases c with
      | append name o =>
        rw [additions, List.mem_singleton, Log.noted_eq] at hr
        rw [hr]
        refine ⟨Log.exists_append o, ?_⟩
        change _ = ((Log.partitionFor o.key ((a.log.append name o).2.width name) : Nat) : Int)
        rw [Log.width_append]
        rfl
      | _ => cases hr

theorem Kept.after (h : a.Kept) {c : LogCall} (hc : c.InRange) : (a.after c).Kept := by
  cases c with
  | change c => exact h.change hc
  | send topic r =>
    rcases a.after_send topic r with heq | heq
    · rw [heq]
      exact h
    · rw [heq]
      exact h.change trivial

theorem Kept.afterAll (h : a.Kept) {calls : List LogCall} (hcalls : ∀ c ∈ calls, c.InRange) :
    (a.afterAll calls).Kept := by
  induction calls generalizing a with
  | nil => exact h
  | cons c rest ih =>
    exact ih (h.after (hcalls c List.mem_cons_self)) fun c' hc' =>
      hcalls c' (List.mem_cons_of_mem _ hc')

/-- What holds of a log at any time. -/
structure Dense (a : Archive) : Prop where
  populated : ∀ topic, a.log.Exists topic → 0 < (a.log.partitionsOf topic).length
  /-- The modulus that chooses a partition is not zero, and the one chosen is there. -/
  chosen : ∀ topic (key : Bytes), (a.log.partitionsFor topic).length.toUInt32 ≠ 0 ∧
    Log.partitionFor key (a.log.partitionsFor topic).length < (a.log.partitionsFor topic).length
  placed : ∀ topic i p, a.log.partition? topic i = some p → ∀ (j : Nat) r,
    p.records[j]? = some r → r.topic = topic ∧ r.partition = i ∧ r.offset = p.low + j
  suffix : ∀ topic i, a.log.records topic i <:+ a.appendedTo topic i
  together : ∀ topic i j, ∀ r ∈ a.appendedTo topic i, ∀ r' ∈ a.appendedTo topic j,
    r.key = r'.key → i = j

theorem Kept.mem_appendedTo (h : a.Kept) {r : Record} (hr : r ∈ a.appendedTo topic i) :
    i = Log.partitionFor r.key (a.log.width topic) := by
  rw [appendedTo, List.mem_filter, decide_eq_true_iff] at hr
  obtain ⟨hmem, rfl, rfl⟩ := hr
  exact (h.homes r hmem).2

theorem Kept.dense (h : a.Kept) : a.Dense where
  populated := by
    intro topic hexists
    obtain ⟨parts, hparts⟩ := Option.isSome_iff_exists.mp hexists
    rw [Log.partitionsOf, hparts]
    exact h.sound.partitions topic parts hparts
  chosen := by
    intro topic key
    have hpos : 0 < (a.log.partitionsFor topic).length :=
      Nat.zero_lt_of_lt (h.sound.home_lt ⟨key, none, []⟩)
    exact ⟨Log.toUInt32_ne_zero hpos (h.narrow topic), Log.partitionFor_lt key hpos⟩
  placed := by
    intro topic i p hp j r hr
    have hplace := (h.sound.slots topic i).placed j r (by rw [Log.slot_of_partition? hp, hr])
    rw [Log.slot_of_partition? hp] at hplace
    exact ⟨congrArg Position.topic hplace, congrArg Position.partition hplace,
      congrArg Position.offset hplace⟩
  suffix := by
    intro topic i
    rw [Log.records_eq]
    exact h.suffix topic i
  together := by
    intro topic i j r hr r' hr' hkey
    rw [h.mem_appendedTo hr, h.mem_appendedTo hr', hkey]

/-- A topic that is there stays, with the partitions it has. -/
theorem lasts_after (hsound : a.log.Sound) (hexists : a.log.Exists topic) (c : LogCall) :
    (a.after c).log.Sound ∧ (a.after c).log.Exists topic ∧
      (a.after c).log.partitionNumbers topic = a.log.partitionNumbers topic := by
  have hchange : ∀ change, (a.after (.change change)).log.Sound ∧
      (a.after (.change change)).log.Exists topic ∧
      (a.after (.change change)).log.partitionNumbers topic = a.log.partitionNumbers topic :=
    fun change => ⟨hsound.change change, hexists.change hsound change,
      Log.partitionNumbers_change hsound hexists change⟩
  cases c with
  | change c => exact hchange c
  | send name r =>
    rcases a.after_send name r with heq | heq
    · rw [heq]
      exact ⟨hsound, hexists, rfl⟩
    · rw [heq]
      exact hchange (.append name r)

theorem lasts_afterAll (hsound : a.log.Sound) (hexists : a.log.Exists topic)
    (calls : List LogCall) : (a.afterAll calls).log.Exists topic ∧
      (a.afterAll calls).log.partitionNumbers topic = a.log.partitionNumbers topic := by
  induction calls generalizing a with
  | nil => exact ⟨hexists, rfl⟩
  | cons c rest ih =>
    obtain ⟨hsound', hexists', hnumbers⟩ := lasts_after hsound hexists c
    obtain ⟨hlasts, hrest⟩ := ih hsound' hexists'
    exact ⟨hlasts, hrest.trans hnumbers⟩

theorem defaultPartitions_after (a : Archive) (c : LogCall) :
    (a.after c).log.defaultPartitions = a.log.defaultPartitions := by
  cases c with
  | change c => exact Log.change_defaultPartitions a.log c
  | send topic r =>
    rcases a.after_send topic r with heq | heq
    · rw [heq]
    · rw [heq]
      exact Log.change_defaultPartitions a.log (.append topic r)

theorem defaultPartitions_afterAll (a : Archive) (calls : List LogCall) :
    (a.afterAll calls).log.defaultPartitions = a.log.defaultPartitions := by
  induction calls generalizing a with
  | nil => rfl
  | cons c rest ih => exact (ih (a.after c)).trans (a.defaultPartitions_after c)

/-- Whatever calls are made on a new log, it is dense at any time, a creation, an append and a drop
do what they should, and no topic ever gets more partitions or fewer. Offsets are not bounded here,
so a drop may name any. -/
theorem dense_append_only (n : Int) (hn : n ≤ Decimal.maxI32) (calls : List LogCall)
    (hcalls : ∀ c ∈ calls, c.InRange) :
    let a := run n calls
    a.Dense ∧ (∀ topic r, a.log.Appends topic r) ∧
      (∀ topic i offset, a.log.Drops topic i offset) ∧
      (∀ spec, a.log.Creates spec) ∧ (a.log.defaultPartitions : Int) = max n 1 ∧
      ∀ topic, a.log.Exists topic → ∀ more, (a.afterAll more).log.Exists topic ∧
        (a.afterAll more).log.partitionNumbers topic = a.log.partitionNumbers topic := by
  intro a
  have hkept : a.Kept := (kept_empty hn).afterAll hcalls
  have hdefault : a.log.defaultPartitions = (max n 1).toNat :=
    defaultPartitions_afterAll ⟨Log.empty n, []⟩ calls
  exact ⟨hkept.dense, hkept.sound.appends, hkept.sound.drops, a.log.creates, by omega,
    fun _ hexists more => lasts_afterAll hkept.sound hexists more⟩

/-- One topic that asks for no number of partitions, written to, dropped from beyond its end and
below its start, and refused a record; another that comes into being by an append. -/
def mixedCalls : List LogCall :=
  [.change (.create "kv" (some (-3))), .change (.append "kv" ⟨[4], some [40], []⟩),
    .send "kv" ⟨[1], some [10], []⟩, .change (.truncate "kv" 1 9),
    .change (.truncate "kv" 0 (-9)), .change (.truncate "kv" 7 1), .send "kv" ⟨[1], none, []⟩,
    .change (.reject true), .send "kv" ⟨[4], none, []⟩, .change (.append "log" ⟨[4], none, []⟩)]

theorem dense_append_only_mixed :
    (2 : Int) ≤ Decimal.maxI32 ∧ (∀ c ∈ mixedCalls, c.InRange) ∧ (run 2 mixedCalls).Dense ∧
      (run 2 mixedCalls).log.Appends "kv" ⟨[1], some [11], []⟩ ∧
      (run 2 mixedCalls).log.Drops "kv" 1 2 ∧
      ((run 2 mixedCalls).log.partitionNumbers "kv" = [0, 1] ∧
        (run 2 mixedCalls).log.partitionNumbers "log" = [0, 1] ∧
        ((run 2 mixedCalls).log.append "kv" ⟨[1], some [11], []⟩).1 = (1, 2) ∧
        (run 2 mixedCalls).log.records "kv" 1 = [⟨"kv", 1, 1, [1], none, []⟩]) := by
  have hn : (2 : Int) ≤ Decimal.maxI32 := by decide
  have hcalls : ∀ c ∈ mixedCalls, c.InRange := by
    simp [mixedCalls, LogCall.InRange, Decimal.maxI32]
  obtain ⟨hdense, happends, hdrops, -⟩ := dense_append_only 2 hn mixedCalls hcalls
  refine ⟨hn, hcalls, hdense, happends _ _, hdrops _ _ _, ?_, ?_, ?_, ?_⟩
  all_goals cbv

end Archive

end KeyedLog
