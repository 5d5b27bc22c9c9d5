import KeyedLog.Proofs.Decode
import KeyedLog.Proofs.Replay.Tracking

/-!
# What a log carries

The records of a topic that only a publisher writes to: one for each message that was accepted, in
that order, and each in the partition that its key selects as it stands on the log.
-/
namespace KeyedLog

/-- The value that messages leave under a key: that of the last one for it, if that has one. -/
def Message.lastValue? (key : Bytes) (messages : List Message) : Option Bytes :=
  ((messages.filter fun m => m.key = key).getLast?).bind Message.value

/-- The value that is stored is that of the last change. -/
theorem Change.map_bind_stored? (changes : List Change) :
    (changes.getLast?.bind Change.stored?).map StoredValue.value =
      (changes.map Change.value).getLast?.join := by
  rw [List.getLast?_map]
  cases changes.getLast? with
  | none => rfl
  | some c =>
    obtain ⟨key, value, correlation⟩ := c
    cases value <;> rfl

/-- Without an envelope the key of a record is that of its change. -/
theorem Decoder.key_of_decode {r : Record} {c : Change}
    (h : Decoder.decode ⟨.disabled, {}⟩ r = .ok c) : c.key = r.key := by
  simp only [decode, openPart, Bool.false_eq_true, if_false, Envelope.opened, Except.mapError] at h
  split at h
  · cases h
  · exact congrArg Change.key (Except.ok.inj h).symm

namespace Log

variable {log : Log} {topic : String}

theorem slot_change_of_spares (h : log.Sound) {c : LogChange} (hc : c.Spares topic) (i : Int) :
    (log.change c).slot topic i = log.slot topic i := by
  cases c with
  | create name count => rw [change, slot_createTopic]
  | append name r => rw [change, slot_append h, if_neg fun heq => hc heq.1.symm]
  | truncate name j offset => rw [change, slot_truncateBefore, if_neg fun heq => hc heq.1.symm]
  | reject on => rfl

/-- How many partitions an append to a topic finds. -/
def width (log : Log) (topic : String) : Nat := (log.partitionsFor topic).length

theorem width_of_exists (hexists : log.Exists topic) :
    log.width topic = (log.partitionNumbers topic).length := by
  obtain ⟨parts, hparts⟩ := Option.isSome_iff_exists.mp hexists
  simp [width, partitionsFor, partitionNumbers, partitionsOf, hparts]

theorem width_change (h : log.Sound) (hexists : log.Exists topic) (c : LogChange) :
    (log.change c).width topic = log.width topic := by
  rw [width_of_exists (hexists.change h c), width_of_exists hexists,
    partitionNumbers_change h hexists]

theorem exists_append (r : Outgoing) : (log.append topic r).2.Exists topic := by
  rw [append_eq, Exists, Assoc.get?_put_self]
  rfl

theorem width_append (r : Outgoing) : (log.append topic r).2.width topic = log.width topic := by
  rw [append_eq, width, partitionsFor, Assoc.get?_put_self, Option.getD_some, List.length_set]
  rfl

/-- A log carries the records of messages: those that were posted, in the order of the messages. -/
structure Carries (d : Decoder) (topic : String) (log : Log) (posted : List Record)
    (accepted : List Message) : Prop where
  records : ∀ i, (log.slot topic i).records = posted.filter fun r => r.partition = i
  homes : ∀ r ∈ posted, r.partition = partitionFor r.key (log.width topic)
  there : posted ≠ [] → log.Exists topic
  decodes : List.Forall₂
    (fun r m => ∃ correlation, d.decode r = .ok ⟨m.key, m.value, correlation⟩) posted accepted

namespace Carries

variable {d : Decoder} {posted : List Record} {accepted : List Message}

theorem empty (d : Decoder) (topic : String) (n : Int) : Carries d topic (empty n) [] [] where
  records := by
    intro i
    rw [slot_of_not_mem]
    · rfl
    · exact List.not_mem_nil
  homes := nofun
  there := fun h => absurd rfl h
  decodes := .nil

theorem change (h : Carries d topic log posted accepted) (hsound : log.Sound) {c : LogChange}
    (hc : c.Spares topic) : Carries d topic (log.change c) posted accepted where
  records := by
    intro i
    rw [slot_change_of_spares hsound hc]
    exact h.records i
  homes := by
    intro r hr
    rw [width_change hsound (h.there (List.ne_nil_of_mem hr))]
    exact h.homes r hr
  there := fun hne => (h.there hne).change hsound c
  decodes := h.decodes

/-- The record of one more message. -/
theorem append (h : Carries d topic log posted accepted) (hsound : log.Sound) {m : Message}
    {o : Outgoing} (ho : ∃ correlation,
      d.decode (log.appended topic o) = .ok ⟨m.key, m.value, correlation⟩) :
    Carries d topic (log.append topic o).2 (posted ++ [log.appended topic o])
      (accepted ++ [m]) where
  records := by
    intro i
    rw [slot_append hsound, List.filter_append]
    split
    · next heq =>
      rw [Partition.records_append, h.records i, List.filter_cons_of_pos]
      · rfl
      · exact decide_eq_true heq.2.symm
    · next hne =>
      rw [h.records i, List.filter_cons_of_neg, List.filter_nil, List.append_nil]
      rw [decide_eq_true_iff]
      exact fun heq => hne ⟨rfl, heq.symm⟩
  homes := by
    intro r hr
    rw [width_append]
    rw [List.mem_append, List.mem_singleton] at hr
    cases hr with
    | inl hr => exact h.homes r hr
    | inr heq =>
      rw [heq]
      rfl
  there := fun _ => exists_append o
  decodes := List.rel_append h.decodes (.cons ho .nil)

/-- The changes of a key have the values of its messages. -/
theorem values_eq (h : Carries d topic log posted accepted) (key : Bytes) :
    ((d.changes posted).filter fun c => c.key = key).map Change.value =
      (accepted.filter fun m => m.key = key).map Message.value := by
  have hdecodes := h.decodes
  clear h
  induction hdecodes with
  | nil => rfl
  | @cons r m posted accepted hdecode _ ih =>
    obtain ⟨correlation, hdecode⟩ := hdecode
    rw [Decoder.changes_cons_of_ok hdecode]
    by_cases hkey : m.key = key
    · rw [List.filter_cons_of_pos (by simpa using hkey), List.map_cons, ih,
        List.filter_cons_of_pos (by simpa using hkey), List.map_cons]
    · rw [List.filter_cons_of_neg (by simpa using hkey), ih,
        List.filter_cons_of_neg (by simpa using hkey)]

/-- The changes of a key whose records all lie in one partition are found there. -/
theorem changes_slot (h : Carries d topic log posted accepted) {key : Bytes} {i : Int}
    (hkept : ∀ r ∈ posted, ∀ c, d.decode r = .ok c → c.key = key → r.partition = i) :
    (d.changes (log.slot topic i).records).filter (fun c => c.key = key) =
      (d.changes posted).filter fun c => c.key = key := by
  rw [h.records i]
  clear h
  induction posted with
  | nil => rfl
  | cons r posted ih =>
    have hrest := ih fun r' hr' => hkept r' (List.mem_cons_of_mem _ hr')
    have hr := hkept r List.mem_cons_self
    by_cases hi : r.partition = i
    · rw [List.filter_cons_of_pos (by simpa using hi)]
      cases hdecode : d.decode r with
      | error e =>
        rw [Decoder.changes_cons_of_error hdecode, Decoder.changes_cons_of_error hdecode, hrest]
      | ok c =>
        rw [Decoder.changes_cons_of_ok hdecode, Decoder.changes_cons_of_ok hdecode,
          List.filter_cons, List.filter_cons, hrest]
    · rw [List.filter_cons_of_neg (by simpa using hi), hrest]
      cases hdecode : d.decode r with
      | error e => rw [Decoder.changes_cons_of_error hdecode]
      | ok c =>
        have hkey : c.key ≠ key := fun hkey => hi (hr c hdecode hkey)
        rw [Decoder.changes_cons_of_ok hdecode, List.filter_cons_of_neg (by simpa using hkey)]

/-- Where the records of a key all lie in one partition, the last of them is that of the last
message. -/
theorem lastStored?_eq (h : Carries d topic log posted accepted) {key : Bytes} {i : Int}
    (hkept : ∀ r ∈ posted, ∀ c, d.decode r = .ok c → c.key = key → r.partition = i) :
    (d.lastStored? key (log.slot topic i).records).map StoredValue.value =
      Message.lastValue? key accepted := by
  rw [Decoder.lastStored?, Decoder.lastChange?, Change.last?, h.changes_slot hkept,
    Change.map_bind_stored?, h.values_eq, Message.lastValue?, List.getLast?_map]
  cases (accepted.filter fun m => m.key = key).getLast? <;> rfl

/-- A key that is not sealed always selects the same partition. -/
theorem kept_of_disabled (h : Carries ⟨.disabled, {}⟩ topic log posted accepted) (key : Bytes) :
    ∀ r ∈ posted, ∀ c, Decoder.decode ⟨.disabled, {}⟩ r = .ok c → c.key = key →
      r.partition = partitionFor key (log.width topic) := by
  intro r hr c hdecode hkey
  have hsame : r.key = key := by
    rw [← hkey, Decoder.key_of_decode hdecode]
  rw [h.homes r hr, hsame]

/-- There is not much choice among one partition. -/
theorem kept_of_single (h : Carries d topic log posted accepted) (hwidth : log.width topic = 1) :
    ∀ r ∈ posted, r.partition = 0 := by
  intro r hr
  have hlt := partitionFor_lt r.key Nat.one_pos
  rw [h.homes r hr, hwidth]
  omega

end Carries

end Log

end KeyedLog
