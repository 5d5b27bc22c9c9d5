import KeyedLog.Proofs.Replay.Standing

/-!
# How a replay gets on

Each partition a watermark is noted for gets a row, a consumer takes over where the rows say, each
record it delivers is at hand until it is applied, and then its cursor has come behind it.
-/
namespace KeyedLog

namespace Contents

variable (m : Contents)

/-- The contents after a change. -/
def apply (c : Change) : Contents :=
  match c.value with
  | some value => m.put c.key ⟨value, c.correlation⟩
  | none => m.remove c.key

theorem get?_apply (c : Change) (key : Bytes) :
    (m.apply c).get? key = if key = c.key then c.stored? else m.get? key := by
  obtain ⟨k, value, correlation⟩ := c
  cases value with
  | some value => exact m.get?_put k ⟨value, correlation⟩ key
  | none => exact m.get?_remove k key

@[simp] theorem offset?_apply (c : Change) : (m.apply c).offset? = m.offset? := by
  obtain ⟨k, value, correlation⟩ := c
  cases value <;> rfl

theorem isSome_advance {topic : String} {i : Int} (p : Position)
    (h : (m.offset? topic i).isSome) : ((m.advance p).offset? topic i).isSome := by
  rw [offset?_advance]
  split
  · rfl
  · exact h

end Contents

namespace Replay

namespace View

variable {x : Setup} {v : View} {m : Contents} {place : Position} {change : Change}

/-- What has been applied with one more change. -/
def applyAt (v : View) (place : Position) (change : Change) : View :=
  { v with applied := v.applied ++ [(place, change)] }

theorem Reading.exists_cursor {reach : Cursor → Int} (hr : Reading x v m reach) {i : Int}
    (hi : i ∈ v.log.partitionNumbers x.topic) :
    ∃ c ∈ v.consumer.cursors, c.partition = i := by
  rw [← hr.cursors] at hi
  exact List.mem_map.mp hi

/-- What lies before a cursor has been come to. -/
theorem Reading.tracked_behind (hr : Reading x v m Cursor.next) (hzero : 0 ≤ place.offset)
    (hpartition : place.partition ∈ v.log.partitionNumbers x.topic)
    (hbehind : ∀ c ∈ v.consumer.cursors, c.partition = place.partition → place.offset < c.next) :
    Tracked x v m place.partition place.offset := by
  obtain ⟨c, hc, hi⟩ := hr.exists_cursor hpartition
  have htracked := hr.tracked c hc
  rw [hi] at htracked
  have hlt := hbehind c hc hi
  exact htracked.mono hzero (by omega)

/-- With a change at hand, a replay has come to its place, and the ledger has not come further. -/
theorem Reading.tracked_atHand (ha : AtHand x v place change)
    (hr : Reading x v m fun c => if c.partition = place.partition then place.offset else c.next) :
    Tracked x v m place.partition place.offset ∧
      ∀ offset, m.offset? x.topic place.partition = some offset → offset ≤ place.offset := by
  obtain ⟨c, hc, hi⟩ := hr.exists_cursor ha.partition
  have htracked := hr.tracked c hc
  have hrows := hr.rows c hc
  rw [if_pos hi, hi] at htracked
  rw [if_pos hi, hi] at hrows
  exact ⟨htracked, hrows⟩

theorem Tracked.apply_self (ha : AtHand x v place change) (hsound : v.log.Sound)
    (ht : Tracked x v m place.partition place.offset) :
    Tracked x (v.applyAt place change) (m.apply change) place.partition (place.offset + 1) := by
  obtain ⟨topic, i, offset⟩ := place
  obtain rfl : topic = x.topic := ha.topic
  apply Partition.Tracked.succ ht (hsound.slots x.topic i) ha.lt_high ha.decodes ha.there
  · rw [Contents.get?_apply, if_pos rfl]
  · intro key hkey
    rw [Contents.get?_apply, if_neg hkey]

/-- Keys at home in other partitions are not concerned. -/
theorem Tracked.apply_other (ha : AtHand x v place change) (hhomed : x.Homed v.log) {i offset : Int}
    (hi : i ≠ place.partition) (ht : Tracked x v m i offset) :
    Tracked x (v.applyAt place change) (m.apply change) i offset := by
  apply Partition.Tracked.frame ht
  intro key hkey
  rw [Contents.get?_apply, if_neg]
  rintro rfl
  rcases ha.there with hnone | ⟨r, hr, hoffset⟩
  · rw [hnone] at hkey
    cases hkey
  · exact hi (hhomed _ r hr change (ha.decodes r hr hoffset) i hkey)

theorem tracked_low_apply (ha : AtHand x v place change) (hsound : v.log.Sound)
    (hhomed : x.Homed v.log) (ht : Tracked x v m place.partition place.offset) (i : Int)
    (hbase : Tracked x v m i (v.log.slot x.topic i).low) :
    Tracked x (v.applyAt place change) (m.apply change) i (v.log.slot x.topic i).low := by
  by_cases hi : i = place.partition
  · subst hi
    apply Partition.Tracked.at_low (hsound.slots x.topic place.partition)
    rcases ha.there with hnone | ⟨r, hr, hoffset⟩
    · exact .of_homeless hnone
    · have hplace := (hsound.slots x.topic place.partition).place hr
      exact (ht.apply_self ha hsound).shows.mono (by omega)
  · exact hbase.apply_other ha hhomed hi

/-- With the record at hand applied, its cursor has come behind it. -/
theorem Reading.apply (ha : AtHand x v place change) (hsound : v.log.Sound)
    (hhomed : x.Homed v.log)
    (hr : Reading x v m fun c => if c.partition = place.partition then place.offset else c.next) :
    Reading x (v.applyAt place change) (m.apply change) Cursor.next where
  exist := hr.exist
  topic := hr.topic
  cursors := hr.cursors
  turn := hr.turn
  tracked := by
    intro c hc
    have htracked := hr.tracked c hc
    by_cases hi : c.partition = place.partition
    · rw [if_pos hi, hi] at htracked
      rw [hi, ha.next c hc hi]
      exact htracked.apply_self ha hsound
    · rw [if_neg hi] at htracked
      exact htracked.apply_other ha hhomed hi
  rows := by
    intro c hc offset hrow
    rw [Contents.offset?_apply] at hrow
    have hle := hr.rows c hc offset hrow
    by_cases hi : c.partition = place.partition
    · have hnext := ha.next c hc hi
      simp only [if_pos hi] at hle
      omega
    · simpa only [if_neg hi] using hle

/-! ## Noting watermarks -/

theorem framing?_noteNext (framing : Framing) (partitions : List Int)
    (ledger noted : List Position) (todo : List Int) :
    (Stage.noteNext framing partitions ledger noted todo).framing? = some framing := by
  cases todo <;> rfl

theorem Noting.stand_noteNext {partitions : List Int} {ledger : List Position} {todo : List Int}
    (hn : Noting x v m partitions ledger todo) (framing : Framing) (noted : List Position) :
    Stand x v m (.noteNext framing partitions ledger noted todo) := by
  cases todo with
  | nil => exact ⟨hn.exist, hn.all, hn.rest, hn.rows, by simp⟩
  | cons i todo => exact hn

theorem Noting.tail {partitions : List Int} {ledger : List Position} {i : Int} {todo : List Int}
    (hn : Noting x v m partitions ledger (i :: todo)) (hrow : (m.offset? x.topic i).isSome) :
    Noting x v m partitions ledger todo where
  exist := hn.exist
  all := hn.all
  rest := fun j hj => hn.rest j (List.mem_cons_of_mem _ hj)
  rows := by
    intro j hj
    rcases hn.rows j hj with hmem | hsome
    · rw [List.mem_cons] at hmem
      cases hmem with
      | inl heq => exact .inr (heq ▸ hrow)
      | inr hmem => exact .inl hmem
    · exact .inr hsome
  ledger := hn.ledger

theorem Noting.advance {partitions : List Int} {ledger : List Position} {todo : List Int}
    (hn : Noting x v m partitions ledger todo) (place : Position) :
    Noting x v (m.advance place) partitions ledger todo where
  exist := hn.exist
  all := hn.all
  rest := hn.rest
  rows := fun j hj => (hn.rows j hj).imp_right (m.isSome_advance place)
  ledger := fun row hrow => m.isSome_advance place (hn.ledger row hrow)

/-- A seed takes its partition off the list. -/
theorem Noting.seed {partitions : List Int} {ledger : List Position} {seed : Position}
    {todo : List Int} (hn : Noting x v m partitions ledger (seed.partition :: todo))
    (htopic : seed.topic = x.topic) :
    Noting x v (m.advance seed) partitions ledger todo := by
  apply (hn.advance seed).tail
  rw [Contents.offset?_advance, if_pos ⟨htopic.symm, rfl⟩]
  rfl

/-! ## Consuming -/

/-- A consumer that takes over where the ledger says reads on from there. -/
theorem reading_assigned (hsound : v.log.Sound) (hexist : v.log.Exists x.topic)
    (hseeded : Seeded x v m)
    (hrows : ∀ i offset, m.offset? x.topic i = some offset → Tracked x v m i offset)
    (hbase : ∀ i, Tracked x v m i (v.log.slot x.topic i).low) {starts : List PartitionStart}
    (hstarts : starts = (v.log.partitionNumbers x.topic).map fun i =>
      ⟨i, .atOffset ((m.offset? x.topic i).getD 0)⟩) :
    Reading x { v with consumer := { v.consumer with
      topic := some x.topic
      cursors := starts.map (Consumer.starting v.log x.topic)
      turn := 0 } } m Cursor.next := by
  have hcursor : ∀ c ∈ starts.map (Consumer.starting v.log x.topic),
      ∃ offset, m.offset? x.topic c.partition = some offset ∧
        c.next = max offset (v.log.slot x.topic c.partition).low := by
    intro c hc
    rw [hstarts, List.map_map] at hc
    obtain ⟨i, hi, rfl⟩ := List.mem_map.mp hc
    obtain ⟨offset, hoffset⟩ := Option.isSome_iff_exists.mp (hseeded i hi)
    refine ⟨offset, hoffset, ?_⟩
    simp only [Function.comp_apply, Consumer.starting, hoffset, Option.getD_some]
  refine ⟨hexist, rfl, ?_, ?_, ?_, ?_⟩
  · simp only [hstarts, List.map_map]
    exact List.map_id _
  · have hne := hexist.partitionNumbers_ne_nil hsound
    simp only [hstarts, List.length_map]
    exact List.length_pos_iff.mpr hne
  · intro c hc
    obtain ⟨offset, hoffset, hnext⟩ := hcursor c hc
    rcases max_choice offset (v.log.slot x.topic c.partition).low with hmax | hmax
    · rw [hnext, hmax]
      exact hrows c.partition offset hoffset
    · rw [hnext, hmax]
      exact hbase c.partition
  · intro c hc offset hrow
    obtain ⟨offset', hoffset', hnext⟩ := hcursor c hc
    rw [hrow, Option.some.injEq] at hoffset'
    rw [hnext, hoffset']
    exact Int.le_max_left _ _

section Delivery

variable {k : Nat} {cursor : Cursor} {r : Record}

/-- The view after a consumer has delivered a record and the record has been decoded. -/
def deliver (v : View) (k : Nat) (cursor : Cursor) (r : Record) (change : Change) : View :=
  { v with
    consumer := { v.consumer with
      cursors := v.consumer.cursors.set k { cursor with next := r.offset + 1 }
      turn := (k + 1) % v.consumer.cursors.length }
    received := v.received ++ [change] }

theorem Reading.deliver (hr : Reading x v m Cursor.next) (hsound : v.log.Sound)
    (hbase : ∀ i, Tracked x v m i (v.log.slot x.topic i).low)
    (hcursor : v.consumer.cursors[k]? = some cursor)
    (hget : (v.log.slot x.topic cursor.partition).get?
      (max cursor.next (v.log.slot x.topic cursor.partition).low) = some r) :
    Reading x (v.deliver k cursor r change) m
      fun c => if c.partition = r.place.partition then r.place.offset else c.next := by
  have hmem := List.mem_of_getElem? hcursor
  have hslot := hsound.slots x.topic cursor.partition
  obtain ⟨hrecord, hoffset⟩ := hslot.get?_eq_some_iff.mp hget
  have hpartition : r.place.partition = cursor.partition := by rw [(hslot.place hrecord).1]
  refine ⟨hr.exist, hr.topic, ?_, ?_, ?_, ?_⟩
  · exact (Consumer.map_partition_set hcursor).trans hr.cursors
  · have hlength := Nat.zero_lt_of_lt hr.turn
    simp only [View.deliver, List.length_set]
    exact Nat.mod_lt _ hlength
  · intro c hc
    by_cases hi : c.partition = r.place.partition
    · rw [if_pos hi, hi, hpartition]
      change Tracked x v m cursor.partition r.offset
      rw [hoffset]
      rcases max_choice cursor.next (v.log.slot x.topic cursor.partition).low with hmax | hmax
      · rw [hmax]
        exact hr.tracked cursor hmem
      · rw [hmax]
        exact hbase cursor.partition
    · rw [if_neg hi]
      rcases Consumer.mem_set_cursor hc with rfl | ⟨j, -, hj⟩
      · exact absurd hpartition.symm hi
      · exact hr.tracked c (List.mem_of_getElem? hj)
  · intro c hc offset hrow
    by_cases hi : c.partition = r.place.partition
    · rw [hi, hpartition] at hrow
      have hle := hr.rows cursor hmem offset hrow
      rw [if_pos hi]
      change offset ≤ r.offset
      omega
    · rw [if_neg hi]
      rcases Consumer.mem_set_cursor hc with rfl | ⟨j, -, hj⟩
      · exact absurd hpartition.symm hi
      · exact hr.rows c (List.mem_of_getElem? hj) offset hrow

theorem Reading.atHand (hr : Reading x v m Cursor.next) (hsound : v.log.Sound)
    (hcursor : v.consumer.cursors[k]? = some cursor)
    (hget : (v.log.slot x.topic cursor.partition).get?
      (max cursor.next (v.log.slot x.topic cursor.partition).low) = some r)
    (hdecode : x.decoder.decode r = .ok change) :
    AtHand x (v.deliver k cursor r change) r.place change := by
  have hslot := hsound.slots x.topic cursor.partition
  obtain ⟨hrecord, -⟩ := hslot.get?_eq_some_iff.mp hget
  obtain ⟨hplace, -, hlt⟩ := hslot.place hrecord
  have hpartition : r.place.partition = cursor.partition := by rw [hplace]
  have hpartitions : (v.consumer.cursors.map Cursor.partition)[k]? = some cursor.partition := by
    rw [List.getElem?_map, hcursor]
    rfl
  refine ⟨by rw [hplace], ?_, ?_, ?_, ?_, ?_, ?_⟩
  · rw [hpartition]
    change cursor.partition ∈ v.log.partitionNumbers x.topic
    rw [← hr.cursors]
    exact List.mem_of_getElem? hpartitions
  · intro c hc hi
    have hnodup := v.log.nodup_partitionNumbers x.topic
    rw [← hr.cursors] at hnodup
    exact Consumer.next_of_mem_set hnodup hcursor hc (hi.trans hpartition)
  · rw [hpartition]
    exact hlt
  · rw [hpartition]
    intro r' hr' hoffset
    rw [hslot.eq_of_offset hr' hrecord hoffset]
    exact hdecode
  · rw [hpartition]
    exact .inr ⟨r, hrecord, rfl⟩
  · simp [View.deliver]

end Delivery

end View

end Replay

end KeyedLog
