import KeyedLog.Log.Schedule
import KeyedLog.Proofs.Log.Reading
import KeyedLog.Session
import Mathlib

/-!
# Exactly once, in order, and in turn

What a consumer delivers after an assignment while others append to the log and drop records of
it. The position of a partition is one behind the last record delivered from it, each delivery is
the lowest record retained from there on, and no partition that has a record waits for longer than
one round.
-/
namespace KeyedLog

/-- The lowest of some records at or above an offset. -/
structure Record.Lowest (records : List Record) (offset : Int) (r : Record) : Prop where
  mem : r ∈ records
  le : offset ≤ r.offset
  least : ∀ r' ∈ records, offset ≤ r'.offset → r.offset ≤ r'.offset

namespace Partition.Sound

variable {p : Partition} {topic : String} {i offset : Int} {r : Record}

theorem lowest_of_get? (h : p.Sound topic i) (hget : p.get? (max offset p.low) = some r) :
    Record.Lowest p.records offset r := by
  obtain ⟨hr, hoffset⟩ := h.get?_eq_some_iff.mp hget
  refine ⟨hr, by omega, fun r' hr' hle => ?_⟩
  have := h.place hr'
  omega

theorem get?_max_eq_none_iff (h : p.Sound topic i) :
    p.get? (max offset p.low) = none ↔ ∀ r ∈ p.records, r.offset < offset := by
  constructor
  · intro hnone r hr
    have hhigh := (get?_eq_none_iff (Int.le_max_right _ _)).mp hnone
    have := h.place hr
    omega
  · intro hall
    cases hget : p.get? (max offset p.low) with
    | none => rfl
    | some r =>
      have hlowest := h.lowest_of_get? hget
      have := hall r hlowest.mem
      have := hlowest.le
      omega

end Partition.Sound

namespace Consumer

variable {log : Log} {topic : String} {c c' : Consumer} {r : Record}

theorem cursorsFor_of_mem {starts : List PartitionStart}
    (h : ∀ s ∈ starts, s.partition ∈ log.partitionNumbers topic) :
    cursorsFor log topic starts = .ok (starts.map (starting log topic)) := by
  induction starts with
  | nil => rfl
  | cons s rest ih =>
    rw [cursorsFor, Log.watermarks_of_mem (h s List.mem_cons_self),
      ih fun s' hs' => h s' (List.mem_cons_of_mem _ hs')]
    rfl

theorem mem_of_cursorsFor {starts : List PartitionStart} {cursors : List Cursor}
    (h : cursorsFor log topic starts = .ok cursors) :
    ∀ s ∈ starts, s.partition ∈ log.partitionNumbers topic := by
  induction starts generalizing cursors with
  | nil => nofun
  | cons s rest ih =>
    rw [cursorsFor] at h
    cases hmarks : log.watermarks topic s.partition with
    | error e => simp only [hmarks, reduceCtorEq] at h
    | ok w =>
      cases hrest : cursorsFor log topic rest with
      | error e => simp only [hmarks, hrest, reduceCtorEq] at h
      | ok others =>
        rintro s' (_ | ⟨_, hs'⟩)
        · exact Log.mem_of_watermarks hmarks
        · exact ih hrest s' hs'

/-- An open consumer takes over partitions that are there, and it takes over no others. -/
theorem assign_ok_iff {starts : List PartitionStart} :
    (∃ c', c.assign log topic starts = (.ok (), c')) ↔
      c.closed = false ∧ ∀ s ∈ starts, s.partition ∈ log.partitionNumbers topic := by
  constructor
  · rintro ⟨c', hassign⟩
    refine ⟨(assign_eq_ok hassign).1, ?_⟩
    rw [assign] at hassign
    split at hassign
    · cases hassign
    · split at hassign
      · cases hassign
      · next hcursors => exact mem_of_cursorsFor hcursors
  · rintro ⟨hopen, hmem⟩
    rw [assign, hopen, cursorsFor_of_mem hmem]
    exact ⟨_, rfl⟩

end Consumer

/-- A consumer on a log, and what it has delivered. -/
structure Subscription where
  log : Log
  consumer : Consumer
  delivered : List Record := []

namespace Subscription

inductive Event where
  /-- A poll looks for a record: when it begins, and whenever an append wakes it. -/
  | look
  /-- Others change the log. -/
  | change (c : LogChange)

def after (sub : Subscription) : Event → Subscription
  | .look =>
    match sub.consumer.next? sub.log with
    | some (r, c) => { sub with consumer := c, delivered := sub.delivered ++ [r] }
    | none => sub
  | .change c => { sub with log := sub.log.change c }

def run (sub : Subscription) (events : List Event) : Subscription := events.foldl after sub

/-- What was delivered from one partition. -/
def deliveredFrom (sub : Subscription) (i : Int) : List Record :=
  sub.delivered.filter fun r => r.partition = i

/-- The next offset wanted from a partition that is read from a cursor on: the one behind the last
record delivered. -/
def position (sub : Subscription) (first : Cursor) : Int :=
  ((sub.deliveredFrom first.partition).getLast?.map fun r => r.offset + 1).getD first.next

/-- A partition retains a record at its position or beyond. -/
def Waiting (topic : String) (sub : Subscription) (first : Cursor) : Prop :=
  ∃ r ∈ sub.log.records topic first.partition, sub.position first ≤ r.offset

variable {sub : Subscription} {topic : String} {first : List Cursor} {c : Cursor} {r : Record}

/-- The subscription after a record has been delivered by the cursor at an index. -/
def deliver (sub : Subscription) (k : Nat) (cursor : Cursor) (r : Record) : Subscription where
  log := sub.log
  consumer := { sub.consumer with
    cursors := sub.consumer.cursors.set k { cursor with next := r.offset + 1 }
    turn := (k + 1) % sub.consumer.cursors.length }
  delivered := sub.delivered ++ [r]

theorem after_look_of_some {c' : Consumer} (h : sub.consumer.next? sub.log = some (r, c')) :
    sub.after .look = { sub with consumer := c', delivered := sub.delivered ++ [r] } := by
  simp only [after, h]

theorem after_look_of_none (h : sub.consumer.next? sub.log = none) : sub.after .look = sub := by
  simp only [after, h]

theorem run_concat (sub : Subscription) (events : List Event) (e : Event) :
    sub.run (events ++ [e]) = (sub.run events).after e := by
  rw [run, List.foldl_concat]
  rfl

theorem deliveredFrom_deliver (k : Nat) (cursor : Cursor) (i : Int) :
    (sub.deliver k cursor r).deliveredFrom i =
      if r.partition = i then sub.deliveredFrom i ++ [r] else sub.deliveredFrom i := by
  rw [deliveredFrom, deliver, List.filter_append, deliveredFrom]
  split
  · next hi => rw [List.filter_cons_of_pos (by simpa using hi), List.filter_nil]
  · next hi =>
    rw [List.filter_cons_of_neg (by simpa using hi), List.filter_nil, List.append_nil]

theorem position_deliver (k : Nat) (cursor : Cursor) :
    (sub.deliver k cursor r).position c =
      if r.partition = c.partition then r.offset + 1 else sub.position c := by
  rw [position, deliveredFrom_deliver]
  split
  · rw [List.getLast?_concat]
    rfl
  · rfl

/-- What was delivered from a partition is in order, and its position is behind it. -/
structure Ordered (sub : Subscription) (c : Cursor) : Prop where
  increasing : (sub.deliveredFrom c.partition).Pairwise fun r r' => r.offset < r'.offset
  from_first : ∀ r ∈ sub.deliveredFrom c.partition, c.next ≤ r.offset
  below : ∀ r ∈ sub.deliveredFrom c.partition, r.offset < sub.position c
  le_position : c.next ≤ sub.position c

theorem Ordered.deliver (h : sub.Ordered c) {k : Nat} {cursor : Cursor}
    (hle : r.partition = c.partition → sub.position c ≤ r.offset) :
    (sub.deliver k cursor r).Ordered c := by
  have hle' := h.le_position
  refine ⟨?_, ?_, ?_, ?_⟩
  all_goals
    simp only [deliveredFrom_deliver, position_deliver]
    split
  · next hi =>
    rw [List.pairwise_append]
    refine ⟨h.increasing, List.pairwise_singleton _ _, fun r' hr' r'' hr'' => ?_⟩
    rw [List.mem_singleton] at hr''
    subst hr''
    have hbelow := h.below r' hr'
    have hfrom := hle hi
    omega
  · exact h.increasing
  · next hi =>
    intro r' hr'
    rw [List.mem_append, List.mem_singleton] at hr'
    have hfrom := hle hi
    rcases hr' with hr' | rfl
    · exact h.from_first r' hr'
    · omega
  · exact h.from_first
  · next hi =>
    intro r' hr'
    rw [List.mem_append, List.mem_singleton] at hr'
    have hfrom := hle hi
    rcases hr' with hr' | rfl
    · have hbelow := h.below r' hr'
      omega
    · omega
  · exact h.below
  · next hi =>
    have hfrom := hle hi
    omega
  · exact h.le_position

/-- A subscription that began with some cursors, one for each partition, has each of them at the
position of its partition, and has left out nothing that is retained. -/
structure Serves (topic : String) (first : List Cursor) (sub : Subscription) : Prop where
  sound : sub.log.Sound
  reads : sub.consumer.topic = some topic
  cursors : sub.consumer.cursors = first.map fun c => { c with next := sub.position c }
  turn : first = [] ∨ sub.consumer.turn < first.length
  source : ∀ r ∈ sub.delivered, r.topic = topic ∧ r.partition ∈ first.map Cursor.partition
  ordered : ∀ c ∈ first, sub.Ordered c
  complete : ∀ c ∈ first, ∀ r ∈ sub.log.records topic c.partition,
    c.next ≤ r.offset → r.offset < sub.position c → r ∈ sub.delivered
  reach : ∀ c ∈ first, sub.position c ≤ max c.next (sub.log.slot topic c.partition).high

namespace Serves

theorem length_cursors (h : Serves topic first sub) :
    sub.consumer.cursors.length = first.length := by
  rw [h.cursors, List.length_map]

theorem getElem?_cursors (h : Serves topic first sub) (k : Nat) :
    sub.consumer.cursors[k]? = first[k]?.map fun c => { c with next := sub.position c } := by
  rw [h.cursors, List.getElem?_map]

/-- Whether a cursor has a record. -/
theorem available?_eq_none_iff (h : Serves topic first sub) (c : Cursor) :
    Consumer.Cursor.available? (sub.log.partitionsOf topic) { c with next := sub.position c } =
      none ↔ ¬ sub.Waiting topic c := by
  rw [Consumer.available?_eq, (h.sound.slots topic c.partition).get?_max_eq_none_iff, Waiting,
    Log.records_eq]
  simp only [not_exists, not_and, Int.not_le]

/-- A look delivers the lowest record of the first partition in turn that has one. -/
theorem look_some (h : Serves topic first sub) {c' : Consumer}
    (hlook : sub.consumer.next? sub.log = some (r, c')) :
    ∃ d k c, k = (sub.consumer.turn + d) % first.length ∧ first[k]? = some c ∧
      Record.Lowest (sub.log.records topic c.partition) (sub.position c) r ∧
      sub.after .look = sub.deliver k c r ∧
      ∀ e < d, ∀ c, first[(sub.consumer.turn + e) % first.length]? = some c →
        ¬ sub.Waiting topic c := by
  rw [after_look_of_some hlook]
  simp only [Consumer.next?, h.reads] at hlook
  obtain ⟨d, k, cursor, hk, hcursor, hready, rfl, hpassed⟩ := Consumer.serve_eq_some hlook
  rw [h.getElem?_cursors, Option.map_eq_some_iff] at hcursor
  obtain ⟨c, hc, rfl⟩ := hcursor
  rw [h.length_cursors] at hk hpassed
  rw [Consumer.available?_eq] at hready
  refine ⟨d, k, c, hk, hc, ?_, rfl, fun e he c hc hwaiting => ?_⟩
  · rw [Log.records_eq]
    exact (h.sound.slots topic c.partition).lowest_of_get? hready
  · have hnone := hpassed e he { c with next := sub.position c } (by
      rw [h.getElem?_cursors, hc]
      rfl)
    exact (h.available?_eq_none_iff c).mp hnone hwaiting

/-- A look delivers nothing if no partition has a record. -/
theorem look_none_iff (h : Serves topic first sub) :
    sub.consumer.next? sub.log = none ↔ ∀ c ∈ first, ¬ sub.Waiting topic c := by
  constructor
  · intro hlook c hc
    have hmem : ({ c with next := sub.position c } : Cursor) ∈ sub.consumer.cursors := by
      rw [h.cursors]
      exact List.mem_map_of_mem hc
    have hturn : sub.consumer.turn < sub.consumer.cursors.length := by
      rw [h.length_cursors]
      exact h.turn.resolve_left (List.ne_nil_of_mem hc)
    have hend := Consumer.high_le_of_next?_eq_none h.reads hturn hlook hmem
    rw [← Partition.get?_eq_none_iff (Int.le_max_right _ _), ← Consumer.available?_eq] at hend
    exact (h.available?_eq_none_iff c).mp hend
  · intro hall
    cases hlook : sub.consumer.next? sub.log with
    | none => rfl
    | some found =>
      obtain ⟨-, k, c, -, hc, hlowest, -, -⟩ := h.look_some hlook
      exact absurd ⟨_, hlowest.mem, hlowest.le⟩ (hall c (List.mem_of_getElem? hc))

/-- Partitions are told apart by their cursors. -/
theorem eq_of_partition (hnodup : (first.map Cursor.partition).Nodup) {c' : Cursor}
    (hc : c ∈ first) (hc' : c' ∈ first) (hsame : c.partition = c'.partition) : c' = c :=
  List.inj_on_of_nodup_map hnodup hc' hc hsame.symm

/-- The cursor of a delivery moves on, the others stay. -/
theorem cursors_deliver (h : Serves topic first sub)
    (hnodup : (first.map Cursor.partition).Nodup) {k : Nat} (hc : first[k]? = some c)
    (hpartition : r.partition = c.partition) :
    (sub.deliver k c r).consumer.cursors =
      first.map fun c' => { c' with next := (sub.deliver k c r).position c' } := by
  apply List.ext_getElem?
  intro j
  rw [Subscription.deliver, List.getElem?_set, h.getElem?_cursors, List.getElem?_map]
  split
  · next hj =>
    have hlength := (List.getElem?_eq_some_iff.mp hc).1
    rw [← hj, h.length_cursors, if_pos hlength, hc, Option.map_some]
    change _ = some { c with next := (sub.deliver k c r).position c }
    rw [position_deliver, if_pos hpartition]
  · next hj =>
    cases hother : first[j]? with
    | none => rfl
    | some c' =>
      rw [Option.map_some, Option.map_some]
      change _ = some { c' with next := (sub.deliver k c r).position c' }
      rw [position_deliver, if_neg]
      intro hi
      obtain rfl := eq_of_partition hnodup (List.mem_of_getElem? hc)
        (List.mem_of_getElem? hother) (hpartition.symm.trans hi)
      have hjlength := (List.getElem?_eq_some_iff.mp hother).1
      exact hj ((List.getElem?_inj hjlength (hnodup.of_map _)).mp (hother.trans hc.symm)).symm

theorem deliver (h : Serves topic first sub) (hnodup : (first.map Cursor.partition).Nodup)
    {k : Nat} (hc : first[k]? = some c)
    (hlowest : Record.Lowest (sub.log.records topic c.partition) (sub.position c) r) :
    Serves topic first (sub.deliver k c r) := by
  have hslot := h.sound.slots topic c.partition
  have hrecord := hlowest.mem
  rw [Log.records_eq] at hrecord
  obtain ⟨hplace, -, hhigh⟩ := hslot.place hrecord
  have hpartition : r.partition = c.partition := congrArg Position.partition hplace
  have hmem := List.mem_of_getElem? hc
  have hsame : ∀ c' ∈ first, r.partition = c'.partition → c' = c := fun c' hc' hi =>
    eq_of_partition hnodup hmem hc' (hpartition.symm.trans hi)
  refine ⟨h.sound, h.reads, h.cursors_deliver hnodup hc hpartition, ?_, ?_, ?_, ?_, ?_⟩
  · right
    rw [Subscription.deliver, h.length_cursors]
    exact Nat.mod_lt _ (Nat.zero_lt_of_lt (List.getElem?_eq_some_iff.mp hc).1)
  · intro r' hr'
    rw [Subscription.deliver, List.mem_append, List.mem_singleton] at hr'
    rcases hr' with hr' | rfl
    · exact h.source r' hr'
    · exact ⟨congrArg Position.topic hplace, hpartition ▸ List.mem_map_of_mem hmem⟩
  · intro c' hc'
    refine (h.ordered c' hc').deliver fun hi => ?_
    rw [hsame c' hc' hi]
    exact hlowest.le
  · intro c' hc' r' hr' hfrom hlt
    rw [position_deliver] at hlt
    rw [Subscription.deliver, List.mem_append, List.mem_singleton]
    split at hlt
    · next hi =>
      obtain rfl := hsame c' hc' hi
      by_cases hbefore : r'.offset < sub.position c'
      · exact .inl (h.complete c' hc' r' hr' hfrom hbefore)
      · right
        have hleast := hlowest.least r' hr' (by omega)
        have hr'' : r' ∈ (sub.log.slot topic c'.partition).records := Log.records_eq ▸ hr'
        exact hslot.eq_of_offset hr'' hrecord (by omega)
    · exact .inl (h.complete c' hc' r' hr' hfrom hlt)
  · intro c' hc'
    rw [position_deliver]
    split
    · next hi =>
      rw [hsame c' hc' hi]
      change _ ≤ max _ (sub.log.slot topic c.partition).high
      omega
    · exact h.reach c' hc'

theorem change (h : Serves topic first sub) (change : LogChange) :
    Serves topic first (sub.after (.change change)) where
  sound := h.sound.change change
  reads := h.reads
  cursors := h.cursors
  turn := h.turn
  source := h.source
  ordered := fun c hc =>
    have hordered := h.ordered c hc
    ⟨hordered.increasing, hordered.from_first, hordered.below, hordered.le_position⟩
  complete := by
    intro c hc r hr hfrom hlt
    rw [Log.records_eq] at hr
    have hchanges := Log.changes_slot h.sound change topic c.partition
    rcases hchanges.mem hr with hr | hnew
    · exact h.complete c hc r (Log.records_eq ▸ hr) hfrom hlt
    · have hreach := h.reach c hc
      have hlt' : r.offset < sub.position c := hlt
      omega
  reach := by
    intro c hc
    have hhigh := (Log.changes_slot h.sound change topic c.partition).high_le
    exact Int.le_trans (h.reach c hc) (max_le_max (Int.le_refl _) hhigh)

theorem after (h : Serves topic first sub) (hnodup : (first.map Cursor.partition).Nodup)
    (e : Event) : Serves topic first (sub.after e) := by
  cases e with
  | change c => exact h.change c
  | look =>
    cases hlook : sub.consumer.next? sub.log with
    | none =>
      rw [after_look_of_none hlook]
      exact h
    | some found =>
      obtain ⟨-, k, c, -, hc, hlowest, hafter, -⟩ := h.look_some hlook
      rw [hafter]
      exact h.deliver hnodup hc hlowest

theorem run (h : Serves topic first sub) (hnodup : (first.map Cursor.partition).Nodup)
    (events : List Event) : Serves topic first (sub.run events) := by
  induction events using List.reverseRecOn with
  | nil => exact h
  | append_singleton events e ih =>
    rw [run_concat]
    exact ih.after hnodup e

/-! ## Fairness -/

/-- While a partition that has a record is not served, its turn comes nearer with each delivery. -/
theorem look_nearer (h : Serves topic first sub) {j a : Nat} (hj : first[j]? = some c)
    (hwaiting : sub.Waiting topic c) (ha : (sub.consumer.turn + a) % first.length = j)
    {c' : Consumer} (hlook : sub.consumer.next? sub.log = some (r, c')) :
    r.partition = c.partition ∨
      ∃ b < a, ((sub.after .look).consumer.turn + b) % first.length = j := by
  obtain ⟨d, k, served, hk, hserved, hlowest, hafter, hpassed⟩ := h.look_some hlook
  rcases Nat.lt_trichotomy d a with hlt | rfl | hgt
  · refine .inr ⟨a - (d + 1), by omega, ?_⟩
    have hsum : sub.consumer.turn + d + 1 + (a - (d + 1)) = sub.consumer.turn + a := by omega
    rw [hafter, Subscription.deliver, h.length_cursors, Nat.mod_add_mod, hk, Nat.add_assoc,
      Nat.mod_add_mod, ← Nat.add_assoc, hsum, ha]
  · left
    rw [← hk.trans ha, hserved, Option.some.injEq] at hj
    subst hj
    have hr := hlowest.mem
    rw [Log.records_eq] at hr
    exact congrArg Position.partition ((h.sound.slots topic served.partition).place hr).1
  · exact absurd hwaiting (hpassed a hgt c (ha ▸ hj))

/-- As long as a partition that has a record at each look is not served, the deliveries are no more
than there are steps to its turn. -/
theorem served_or_near (h : Serves topic first sub) (hnodup : (first.map Cursor.partition).Nodup)
    {j a : Nat} (hj : first[j]? = some c) (ha : (sub.consumer.turn + a) % first.length = j)
    (more : List Event)
    (hwaiting : ∀ before, before ++ [.look] <+: more → (sub.run before).Waiting topic c) :
    ∃ new, (sub.run more).delivered = sub.delivered ++ new ∧
      ((∃ r ∈ new, r.partition = c.partition) ∨
        ∃ b, b + new.length ≤ a ∧ ((sub.run more).consumer.turn + b) % first.length = j) := by
  induction more using List.reverseRecOn with
  | nil => exact ⟨[], (List.append_nil _).symm, .inr ⟨a, Nat.le_refl _, ha⟩⟩
  | append_singleton more e ih =>
    obtain ⟨new, hnew, hserved⟩ := ih fun before hbefore =>
      hwaiting before (hbefore.trans (List.prefix_append _ _))
    rw [run_concat]
    cases e with
    | change change => exact ⟨new, hnew, hserved⟩
    | look =>
      cases hlook : (sub.run more).consumer.next? (sub.run more).log with
      | none =>
        rw [after_look_of_none hlook]
        exact ⟨new, hnew, hserved⟩
      | some found =>
        obtain ⟨r, c'⟩ := found
        refine ⟨new ++ [r], ?_, ?_⟩
        · rw [after_look_of_some hlook, hnew, List.append_assoc]
        rcases hserved with ⟨r', hr', hi⟩ | ⟨b, hb, hturn⟩
        · exact .inl ⟨r', List.mem_append_left _ hr', hi⟩
        rcases (h.run hnodup more).look_nearer hj (hwaiting more (List.prefix_refl _)) hturn hlook
          with hi | ⟨b', hb', hturn'⟩
        · exact .inl ⟨r, List.mem_append_right _ List.mem_cons_self, hi⟩
        · refine .inr ⟨b', ?_, hturn'⟩
          rw [List.length_append, List.length_singleton]
          omega

/-- A partition that has a record at each look is served within one round. -/
theorem served_within (h : Serves topic first sub) (hnodup : (first.map Cursor.partition).Nodup)
    (hc : c ∈ first) {more : List Event} {new : List Record}
    (hwaiting : ∀ before, before ++ [.look] <+: more → (sub.run before).Waiting topic c)
    (hnew : (sub.run more).delivered = sub.delivered ++ new) (hround : first.length ≤ new.length) :
    ∃ r ∈ new, r.partition = c.partition := by
  obtain ⟨j, hj⟩ := List.mem_iff_getElem?.mp hc
  have hjlength := (List.getElem?_eq_some_iff.mp hj).1
  have hturn := h.turn.resolve_left (List.ne_nil_of_mem hc)
  obtain ⟨a, ha, hmod⟩ : ∃ a < first.length, (sub.consumer.turn + a) % first.length = j :=
    Consumer.exists_lt_add_mod_eq hturn hjlength
  obtain ⟨new', hnew', hserved⟩ := h.served_or_near hnodup hj hmod more hwaiting
  obtain rfl : new = new' := List.append_cancel_left (hnew.symm.trans hnew')
  refine hserved.resolve_right ?_
  rintro ⟨b, hb, -⟩
  omega

end Serves

/-- An assignment to an open consumer begins a subscription. -/
theorem serves_start {log : Log} (hlog : log.Sound) {consumer consumer' : Consumer}
    {starts : List PartitionStart}
    (hassign : consumer.assign log topic starts = (.ok (), consumer')) :
    Serves topic (starts.map (Consumer.starting log topic)) ⟨log, consumer', []⟩ := by
  obtain ⟨-, rfl⟩ := Consumer.assign_eq_ok hassign
  refine ⟨hlog, rfl, ?_, ?_, nofun, fun c hc => ⟨.nil, nofun, nofun, Int.le_refl _⟩, ?_, ?_⟩
  · exact (List.map_id _).symm
  · cases starts with
    | nil => exact .inl rfl
    | cons s rest => exact .inr (Nat.succ_pos _)
  · intro c hc r hr hfrom hlt
    have hlt' : r.offset < c.next := hlt
    omega
  · intro c hc
    exact Int.le_max_left _ _

/-! ## Polls -/

/-- Appends that are made while a poll waits, each with the look that it wakes the poll to. -/
def wakes (made : List Due) : List Event :=
  made.flatMap fun d => [.change (.append d.topic d.record), .look]

/-- What a poll comes to: it looks when it begins and after each append, up to the look that its
answer is from. Looks before that one find nothing, and nothing is answered before the time is
over. -/
structure Polls (s : Schedule) (c : Consumer) (timeout : Nat) (record : Option Record)
    (c' : Consumer) (s' : Schedule) (before : List Event) : Prop where
  looks : ∃ made, s.due = made ++ s'.due ∧ before ++ [.look] = .look :: wakes made
  waits : ∀ delivered, (Subscription.mk s.log c delivered).run before = ⟨s'.log, c, delivered⟩
  answers : ∀ delivered, (Subscription.mk s'.log c delivered).after .look =
    ⟨s'.log, c', delivered ++ record.toList⟩
  patient : record = none → s.now + timeout ≤ s'.now

/-- While a poll waits, each append wakes it for another look, until one finds something or the time
is over. -/
theorem waitUntil_looks {consumer : Consumer} (deadline now : Nat) (due : List Due) (log : Log)
    (hnone : consumer.next? log = none) :
    let s' := Schedule.waitUntil deadline (fun log => (consumer.next? log).isSome) log now due
    (∃ made before, due = made ++ s'.due ∧ before ++ [.look] = .look :: wakes made ∧
      ∀ delivered, (Subscription.mk log consumer delivered).run before =
        ⟨s'.log, consumer, delivered⟩) ∧
      (consumer.next? s'.log = none → deadline ≤ s'.now) := by
  have hlook : ∀ delivered, (Subscription.mk log consumer delivered).after .look =
      ⟨log, consumer, delivered⟩ := fun delivered => after_look_of_none hnone
  induction due generalizing log now with
  | nil => exact ⟨⟨[], [], rfl, rfl, fun _ => rfl⟩, fun _ => Nat.le_max_right _ _⟩
  | cons d rest ih =>
    simp only [Schedule.waitUntil]
    split
    · split
      · next hfound =>
        refine ⟨⟨[d], [.look, .change (.append d.topic d.record)], rfl, rfl, fun delivered => ?_⟩,
          fun hempty => ?_⟩
        · rw [run, List.foldl_cons, hlook]
          rfl
        · rw [hempty] at hfound
          cases hfound
      · next hnext =>
        rw [Bool.not_eq_true, Option.isSome_eq_false_iff, Option.isNone_iff_eq_none] at hnext
        obtain ⟨⟨made, before, hdue, hlooks, hrun⟩, hpatient⟩ := ih (max now d.moment) _ hnext
          fun delivered => after_look_of_none hnext
        refine ⟨⟨d :: made, .look :: .change (.append d.topic d.record) :: before, ?_, ?_,
          fun delivered => ?_⟩, hpatient⟩
        · rw [List.cons_append, ← hdue]
        · rw [List.cons_append, List.cons_append, hlooks]
          rfl
        · rw [run, List.foldl_cons, hlook]
          exact hrun delivered
    · exact ⟨⟨[], [], rfl, rfl, fun _ => rfl⟩, fun _ => Nat.le_max_right _ _⟩

/-- A poll of an open consumer comes to some looks, with an append before each but the first. -/
theorem exists_polls (s : Schedule) {c : Consumer} (hopen : c.closed = false) (timeout : Nat) :
    ∃ record c' s' before, s.poll c timeout = .ok (record, c', s') ∧
      Polls s c timeout record c' s' before := by
  simp only [Schedule.poll, hopen, Bool.false_eq_true, if_false]
  cases hnext : c.next? s.log with
  | some found =>
    obtain ⟨r, c'⟩ := found
    exact ⟨some r, c', s, [], rfl, ⟨[], rfl, rfl⟩, fun _ => rfl,
      fun _ => after_look_of_some hnext, nofun⟩
  | none =>
    obtain ⟨⟨made, before, hdue, hlooks, hrun⟩, hpatient⟩ :=
      waitUntil_looks (s.now + timeout) s.now s.due s.log hnext
    simp only
    generalize Schedule.waitUntil (s.now + timeout) (fun log => (c.next? log).isSome) s.log
      s.now s.due = s' at hdue hrun hpatient
    cases hlast : c.next? s'.log with
    | some found =>
      obtain ⟨r, c'⟩ := found
      exact ⟨some r, c', s', before, rfl, ⟨made, hdue, hlooks⟩, hrun,
        fun _ => after_look_of_some hlast, nofun⟩
    | none =>
      refine ⟨none, c, s', before, rfl, ⟨made, hdue, hlooks⟩, hrun, fun delivered => ?_,
        fun _ => hpatient hlast⟩
      rw [after_look_of_none hlast, Option.toList_none, List.append_nil]

/-- What a subscription that began with some cursors has delivered, what it delivers next, and
which partitions it serves from now on. -/
structure Exact (topic : String) (first : List Cursor) (sub : Subscription) : Prop where
  positions : sub.consumer.cursors = first.map fun c => { c with next := sub.position c }
  source : ∀ r ∈ sub.delivered, r.topic = topic ∧ r.partition ∈ first.map Cursor.partition
  ordered : ∀ c ∈ first, sub.Ordered c
  complete : ∀ c ∈ first, ∀ r ∈ sub.log.records topic c.partition,
    c.next ≤ r.offset → r.offset < sub.position c → r ∈ sub.delivered
  next : ∀ r c', sub.consumer.next? sub.log = some (r, c') → ∃ c ∈ first,
    r.partition = c.partition ∧
      Record.Lowest (sub.log.records topic c.partition) (sub.position c) r
  ends : sub.consumer.next? sub.log = none ↔ ∀ c ∈ first, ¬ sub.Waiting topic c
  fair : ∀ c ∈ first, ∀ more new,
    (∀ before, before ++ [.look] <+: more → (sub.run before).Waiting topic c) →
      (sub.run more).delivered = sub.delivered ++ new → first.length ≤ new.length →
        ∃ r ∈ new, r.partition = c.partition

theorem Serves.exact (h : Serves topic first sub) (hnodup : (first.map Cursor.partition).Nodup) :
    Exact topic first sub where
  positions := h.cursors
  source := h.source
  ordered := h.ordered
  complete := h.complete
  next := by
    intro r c' hlook
    obtain ⟨-, k, c, -, hc, hlowest, -, -⟩ := h.look_some hlook
    have hr := hlowest.mem
    rw [Log.records_eq] at hr
    have hplace := (h.sound.slots topic c.partition).place hr
    exact ⟨c, List.mem_of_getElem? hc, congrArg Position.partition hplace.1, hlowest⟩
  ends := h.look_none_iff
  fair := fun _ hc _ _ hwaiting hnew hround => h.served_within hnodup hc hwaiting hnew hround

end Subscription

/-- An assignment fails for a consumer that is closed, or for a partition that is not there, and
leaves the consumer as it was. -/
theorem Consumer.assign_of_error {c c' : Consumer} {log : Log} {topic : String}
    {starts : List PartitionStart} {e : BrokerError}
    (h : c.assign log topic starts = (.error e, c')) :
    c' = c ∧ (c.closed = true ∨ ∃ s ∈ starts, s.partition ∉ log.partitionNumbers topic) := by
  refine ⟨assign_eq_error h, ?_⟩
  by_contra hfine
  simp only [not_or, not_exists, not_and, not_not, Bool.not_eq_true] at hfine
  obtain ⟨assigned, hassign⟩ := assign_ok_iff.mpr hfine
  rw [h] at hassign
  cases hassign

theorem Session.consumer_setConsumer_self (s : Session) (id other : String) :
    (s.setConsumer id (s.consumer id)).consumer other = s.consumer other := by
  by_cases hother : other = id
  · rw [hother, setConsumer, consumer, Assoc.get?_put_self]
    rfl
  · rw [setConsumer, consumer, Assoc.get?_put_of_ne hother]
    rfl

/-- In a session where an assignment fails, all consumers are left as they were. -/
theorem Session.consumer_assign_of_error {s s' : Session} {id topic : String}
    {starts : List PartitionStart} {e : BrokerError}
    (h : s.assign id topic starts = (.error e, s')) (other : String) :
    s'.consumer other = s.consumer other := by
  rw [assign] at h
  rcases hassign : (s.consumer id).assign s.log topic starts with ⟨result, c⟩
  rw [hassign] at h
  obtain ⟨rfl, rfl⟩ := Prod.mk.inj h
  rw [Consumer.assign_eq_error hassign]
  exact s.consumer_setConsumer_self id other

namespace Subscription

/-- Let an open consumer be assigned distinct partitions that are there, from any starts on, and let
its looks be interleaved in any way with what others do to the log. Then at any time it has
delivered from each partition what was retained from the start on, in order and once; it delivers
the lowest record that is retained at some position or beyond, and nothing only if there is none;
and each partition that has records is served within one round. A poll consists of such looks, and
its answer is what the last of them finds. An assignment that fails changes nothing. -/
theorem delivers_once_in_turn (n : Int) (changes : List LogChange) (topic : String)
    (starts : List PartitionStart) (hnodup : (starts.map PartitionStart.partition).Nodup)
    (hthere : ∀ s ∈ starts,
      s.partition ∈ ((Log.empty n).changeAll changes).partitionNumbers topic)
    (consumer : Consumer) (hopen : consumer.closed = false) :
    let log := (Log.empty n).changeAll changes
    (∃ assigned, consumer.assign log topic starts = (.ok (), assigned) ∧ ∀ events,
      Exact topic (starts.map (Consumer.starting log topic))
        ((Subscription.mk log assigned []).run events)) ∧
    (∀ (s : Schedule) (c : Consumer) timeout, c.closed = false → ∃ record c' s' before,
      s.poll c timeout = .ok (record, c', s') ∧ Polls s c timeout record c' s' before) ∧
    (∀ (c c' : Consumer) log topic starts e, c.assign log topic starts = (.error e, c') →
      c' = c ∧ (c.closed = true ∨ ∃ s ∈ starts, s.partition ∉ log.partitionNumbers topic)) ∧
    ∀ (s s' : Session) id topic starts e, s.assign id topic starts = (.error e, s') →
      ∀ other, s'.consumer other = s.consumer other := by
  intro log
  have hlog : log.Sound := (Log.sound_empty n).changeAll changes
  refine ⟨?_, fun s c timeout hc => exists_polls s hc timeout,
    fun _ _ _ _ _ _ h => Consumer.assign_of_error h,
    fun _ _ _ _ _ _ h => Session.consumer_assign_of_error h⟩
  obtain ⟨assigned, hassign⟩ := Consumer.assign_ok_iff.mpr ⟨hopen, hthere⟩
  refine ⟨assigned, hassign, fun events => ?_⟩
  have hfirst : ((starts.map (Consumer.starting log topic)).map Cursor.partition).Nodup := by
    rw [List.map_map]
    exact hnodup
  exact ((serves_start hlog hassign).run hfirst events).exact hfirst

/-- A log of two partitions, with one record in the first and two in the second. -/
def pairChanges : List LogChange :=
  [.append "kv" ⟨[4], some [40], []⟩, .append "kv" ⟨[1], some [10], []⟩,
    .append "kv" ⟨[1], none, []⟩]

def pairLog : Log := (Log.empty 2).changeAll pairChanges

def pairStarts : List PartitionStart := [⟨1, .atOffset 1⟩, ⟨0, .beginning⟩]

/-- The first partition grows, and all that the second retains is dropped before it grows again. -/
def pairEvents : List Event :=
  [.look, .change (.append "kv" ⟨[5], some [50], []⟩), .look,
    .change (.append "kv" ⟨[2], some [20], []⟩), .change (.truncate "kv" 1 3),
    .change (.append "kv" ⟨[3], some [30], []⟩), .look, .look, .look]

theorem delivers_once_in_turn_pair :
    (pairStarts.map PartitionStart.partition).Nodup ∧
      (∀ s ∈ pairStarts, s.partition ∈ pairLog.partitionNumbers "kv") ∧
      ∃ assigned, Consumer.assign {} pairLog "kv" pairStarts = (.ok (), assigned) ∧
        Exact "kv" (pairStarts.map (Consumer.starting pairLog "kv"))
          ((Subscription.mk pairLog assigned []).run pairEvents) ∧
        ((Subscription.mk pairLog assigned []).run pairEvents).delivered.map
          (fun r => (r.partition, r.offset)) = [(1, 1), (0, 0), (1, 3), (0, 1)] := by
  have hnodup : (pairStarts.map PartitionStart.partition).Nodup := by decide
  have hnumbers : pairLog.partitionNumbers "kv" = [0, 1] := by cbv
  have hthere : ∀ s ∈ pairStarts, s.partition ∈ pairLog.partitionNumbers "kv" := by
    rw [hnumbers]
    decide
  obtain ⟨⟨assigned, hassign, hexact⟩, -, -, -⟩ :=
    delivers_once_in_turn 2 pairChanges "kv" pairStarts hnodup hthere {} rfl
  refine ⟨hnodup, hthere, assigned, hassign, hexact pairEvents, ?_⟩
  have hcursors : assigned = { topic := some "kv", cursors := [⟨1, 1⟩, ⟨0, 0⟩] } := by
    have hcomputed : Consumer.assign {} pairLog "kv" pairStarts =
        (.ok (), { topic := some "kv", cursors := [⟨1, 1⟩, ⟨0, 0⟩] }) := by cbv
    exact (Prod.mk.inj (hassign.symm.trans hcomputed)).2
  rw [hcursors]
  cbv

end Subscription

end KeyedLog
