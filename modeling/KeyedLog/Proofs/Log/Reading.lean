import KeyedLog.Log.Consumer
import KeyedLog.Proofs.Log.Sound
import KeyedLog.Proofs.StartPosition
import KeyedLog.Proofs.Store.Contents

/-!
# What consumers read

A poll delivers the record some cursor stands at and moves that cursor behind it. When it delivers
nothing, no cursor has anything left. A consumer resumes at the rows of a ledger that has one for
each of its partitions.
-/
namespace KeyedLog

variable {log : Log} {topic : String} {c c' : Consumer} {r : Record}

namespace Consumer

theorem available?_eq (cursor : Cursor) :
    Cursor.available? (log.partitionsOf topic) cursor =
      (log.slot topic cursor.partition).get?
        (max cursor.next (log.slot topic cursor.partition).low) := by
  have hempty : ∀ offset, ({} : Partition).get? offset = none := by
    intro offset
    simp [Partition.get?]
  rw [Cursor.available?]
  split
  · next hneg => rw [Log.slot_of_neg hneg, hempty]
  · next hzero =>
    rw [Log.slot, Log.partition?, if_neg hzero]
    cases (log.partitionsOf topic)[cursor.partition.toNat]? with
    | none => exact (hempty _).symm
    | some p => rfl

/-- Counting on from a place in a circle comes by every other place. -/
theorem exists_lt_add_mod_eq {n i j : Nat} (hi : i < n) (hj : j < n) :
    ∃ d < n, (i + d) % n = j := by
  by_cases hle : i ≤ j
  · exact ⟨j - i, by omega, by rw [Nat.add_sub_cancel' hle, Nat.mod_eq_of_lt hj]⟩
  · refine ⟨j + n - i, by omega, ?_⟩
    have hsum : i + (j + n - i) = j + n := by omega
    rw [hsum, Nat.add_mod_right, Nat.mod_eq_of_lt hj]

/-- A poll serves the first cursor in turn that has a record, and moves it behind the record. -/
theorem serve_eq_some {partitions : List Partition} {steps index : Nat}
    (h : serve partitions c steps index = some (r, c')) :
    ∃ d k cursor, k = (index + d) % c.cursors.length ∧ c.cursors[k]? = some cursor ∧
      Cursor.available? partitions cursor = some r ∧
      c' = { c with
        cursors := c.cursors.set k { cursor with next := r.offset + 1 }
        turn := (k + 1) % c.cursors.length } ∧
      ∀ e < d, ∀ passed, c.cursors[(index + e) % c.cursors.length]? = some passed →
        Cursor.available? partitions passed = none := by
  induction steps generalizing index with
  | zero => cases h
  | succ steps ih =>
    rw [serve] at h
    cases hfirst : c.cursors[index]? with
    | none => simp only [hfirst, reduceCtorEq] at h
    | some cursor =>
      simp only [hfirst] at h
      have hindex := (List.getElem?_eq_some_iff.mp hfirst).1
      have hhere : (index + 0) % c.cursors.length = index := Nat.mod_eq_of_lt hindex
      cases hready : Cursor.available? partitions cursor with
      | some record =>
        simp only [hready, Option.some.injEq, Prod.mk.injEq] at h
        obtain ⟨rfl, rfl⟩ := h
        exact ⟨0, index, cursor, hhere.symm, hfirst, hready, rfl, nofun⟩
      | none =>
        simp only [hready] at h
        have hshift : ∀ e, ((index + 1) % c.cursors.length + e) % c.cursors.length =
            (index + (e + 1)) % c.cursors.length := by
          intro e
          rw [Nat.mod_add_mod, Nat.add_right_comm, Nat.add_assoc]
        obtain ⟨d, k, served, hk, hserved, havailable, hc', hpassed⟩ := ih h
        refine ⟨d + 1, k, served, hk.trans (hshift d), hserved, havailable, hc', ?_⟩
        intro e he passed hpass
        cases e with
        | zero =>
          rw [hhere, hfirst, Option.some.injEq] at hpass
          exact hpass ▸ hready
        | succ e =>
          rw [← hshift] at hpass
          exact hpassed e (by omega) passed hpass

/-- A poll that delivers nothing has come by every cursor in turn. -/
theorem serve_eq_none {partitions : List Partition} {steps index : Nat}
    (h : serve partitions c steps index = none) (hindex : index < c.cursors.length) (d : Nat)
    (hd : d < steps) :
    ∃ cursor, c.cursors[(index + d) % c.cursors.length]? = some cursor ∧
      Cursor.available? partitions cursor = none := by
  induction steps generalizing index d with
  | zero => omega
  | succ steps ih =>
    rw [serve, List.getElem?_eq_getElem hindex] at h
    cases hready : Cursor.available? partitions c.cursors[index] with
    | some record => simp only [hready, reduceCtorEq] at h
    | none =>
      simp only [hready] at h
      cases d with
      | zero =>
        refine ⟨c.cursors[index], ?_, hready⟩
        rw [Nat.add_zero, Nat.mod_eq_of_lt hindex, List.getElem?_eq_getElem hindex]
      | succ d =>
        have hnext : (index + 1) % c.cursors.length < c.cursors.length :=
          Nat.mod_lt _ (Nat.zero_lt_of_lt hindex)
        obtain ⟨cursor, hcursor, hnone⟩ := ih h hnext d (by omega)
        refine ⟨cursor, ?_, hnone⟩
        rw [Nat.mod_add_mod] at hcursor
        rw [← hcursor]
        congr 2
        omega

theorem next?_eq_some (htopic : c.topic = some topic) (h : c.next? log = some (r, c')) :
    ∃ k cursor, c.cursors[k]? = some cursor ∧
      (log.slot topic cursor.partition).get?
        (max cursor.next (log.slot topic cursor.partition).low) = some r ∧
      c' = { c with
        cursors := c.cursors.set k { cursor with next := r.offset + 1 }
        turn := (k + 1) % c.cursors.length } := by
  simp only [next?, htopic] at h
  obtain ⟨_, k, cursor, -, hcursor, hready, hc', -⟩ := serve_eq_some h
  rw [available?_eq] at hready
  exact ⟨k, cursor, hcursor, hready, hc'⟩

/-- When nothing is delivered, every cursor has reached the end of its partition. -/
theorem high_le_of_next?_eq_none (htopic : c.topic = some topic)
    (hturn : c.turn < c.cursors.length) (h : c.next? log = none) {cursor : Cursor}
    (hmem : cursor ∈ c.cursors) :
    (log.slot topic cursor.partition).high ≤
      max cursor.next (log.slot topic cursor.partition).low := by
  simp only [next?, htopic] at h
  obtain ⟨k, hk, hcursor⟩ := List.mem_iff_getElem.mp hmem
  -- counting from the turn on, the cursor is met after as many steps
  obtain ⟨d, hd, hmod⟩ := exists_lt_add_mod_eq hturn hk
  obtain ⟨cursor', hcursor', hnone⟩ := serve_eq_none h hturn d hd
  rw [hmod, List.getElem?_eq_getElem hk, hcursor, Option.some.injEq] at hcursor'
  subst hcursor'
  rw [available?_eq] at hnone
  exact (Partition.get?_eq_none_iff (Int.le_max_right _ _)).mp hnone

section Moving

variable {cursors : List Cursor} {cursor moved : Cursor} {k : Nat} {next : Int}

/-- Moving a cursor leaves it on its partition. -/
theorem map_partition_set (hcursor : cursors[k]? = some cursor) :
    (cursors.set k { cursor with next := next }).map Cursor.partition =
      cursors.map Cursor.partition := by
  rw [List.map_set]
  apply List.ext_getElem?
  intro j
  rw [List.getElem?_set]
  split
  · next heq =>
    have hlength := (List.getElem?_eq_some_iff.mp hcursor).1
    rw [← heq, List.length_map, if_pos hlength, List.getElem?_map, hcursor]
    rfl
  · rfl

theorem mem_set_cursor (hmoved : moved ∈ cursors.set k { cursor with next := next }) :
    moved = { cursor with next := next } ∨ ∃ j, j ≠ k ∧ cursors[j]? = some moved := by
  obtain ⟨j, hj⟩ := List.mem_iff_getElem?.mp hmoved
  rw [List.getElem?_set] at hj
  split at hj
  · split at hj
    · exact .inl (Option.some.inj hj).symm
    · cases hj
  · next hne => exact .inr ⟨j, Ne.symm hne, hj⟩

/-- Where no two cursors are for one partition, the one that was moved is the only one for its. -/
theorem next_of_mem_set (hnodup : (cursors.map Cursor.partition).Nodup)
    (hcursor : cursors[k]? = some cursor)
    (hmoved : moved ∈ cursors.set k { cursor with next := next })
    (hpartition : moved.partition = cursor.partition) : moved.next = next := by
  rcases mem_set_cursor hmoved with rfl | ⟨j, hne, hj⟩
  · rfl
  · have hat : (cursors.map Cursor.partition)[k]? = some cursor.partition := by
      rw [List.getElem?_map, hcursor]
      rfl
    have hother : (cursors.map Cursor.partition)[j]? = some cursor.partition := by
      rw [List.getElem?_map, hj, Option.map_some, hpartition]
    have hjlength := (List.getElem?_eq_some_iff.mp hother).1
    exact absurd ((List.getElem?_inj hjlength hnodup).mp (hother.trans hat.symm)) hne

end Moving

/-- Where a consumer begins to read a partition. -/
def starting (log : Log) (topic : String) (s : PartitionStart) : Cursor where
  partition := s.partition
  next :=
    match s.start with
    | .beginning => (log.slot topic s.partition).low
    | .atOffset offset => max offset (log.slot topic s.partition).low

theorem cursorsFor_eq_ok {starts : List PartitionStart} {cursors : List Cursor}
    (h : cursorsFor log topic starts = .ok cursors) :
    cursors = starts.map (starting log topic) := by
  induction starts generalizing cursors with
  | nil => exact (Except.ok.inj h).symm
  | cons s rest ih =>
    rw [cursorsFor] at h
    cases hmarks : log.watermarks topic s.partition with
    | error e => simp only [hmarks, reduceCtorEq] at h
    | ok w =>
      obtain rfl := Log.watermarks_eq_ok hmarks
      cases hrest : cursorsFor log topic rest with
      | error e => simp only [hmarks, hrest, reduceCtorEq] at h
      | ok others =>
        simp only [hmarks, hrest, Except.ok.injEq] at h
        rw [← h, List.map_cons, ih hrest]
        rfl

theorem assign_eq_ok {starts : List PartitionStart}
    (h : c.assign log topic starts = (.ok (), c')) :
    c.closed = false ∧ c' = { c with
      topic := some topic
      cursors := starts.map (starting log topic)
      turn := 0 } := by
  rw [assign] at h
  split at h
  · cases h
  · next hopen =>
    split at h
    · cases h
    · next cursors hcursors =>
      obtain ⟨-, rfl⟩ := Prod.mk.inj h
      rw [cursorsFor_eq_ok hcursors]
      exact ⟨Bool.eq_false_of_not_eq_true hopen, rfl⟩

/-- A consumer that could not take over partitions keeps those it has. -/
theorem assign_eq_error {starts : List PartitionStart} {e : BrokerError}
    (h : c.assign log topic starts = (.error e, c')) : c' = c := by
  rw [assign] at h
  split at h
  · exact (Prod.mk.inj h).2.symm
  · split at h
    · exact (Prod.mk.inj h).2.symm
    · cases h

end Consumer

/-! ## Resuming from a ledger -/

namespace Contents.Lists

variable {m : Contents} {rows : List Position}

theorem distinct (h : m.Lists rows) : Position.Distinct rows := by
  rw [Position.Distinct, List.Nodup, List.pairwise_map]
  apply h.ordered.imp_of_mem
  intro a b ha hb hbefore heq
  rw [Prod.mk.injEq] at heq
  have hrow := (h.mem a).mp ha
  rw [heq.1, heq.2, (h.mem b).mp hb, Option.some.injEq] at hrow
  have hsame : a = b := by
    cases a
    cases b
    simp_all
  exact hbefore.ne hsame

/-- The first row for a partition is the only one. -/
theorem offsetOf? (h : m.Lists rows) (topic : String) (i : Int) :
    Position.offsetOf? rows topic i = m.offset? topic i := by
  apply Option.ext
  intro offset
  rw [Position.offsetOf?_eq_some_iff h.distinct, h.mem]

end Contents.Lists

namespace Start

/-- A ledger with a row for each assigned partition, and for no other, is resumed. -/
theorem resolve_eq {m : Contents} {rows : List Position} (h : m.Lists rows)
    {assigned : List Int} (hnodup : assigned.Nodup)
    (hrows : ∀ i, i ∈ assigned ↔ (m.offset? topic i).isSome) :
    resolve topic assigned rows =
      assigned.map fun i => ⟨i, .atOffset ((m.offset? topic i).getD 0)⟩ := by
  have hmatches : Matches topic assigned rows := by
    intro i
    rw [hrows, ← Position.isSome_offsetOf?, h.offsetOf?]
  simp only [resolve_of_matches hnodup h.distinct hmatches, h.offsetOf?]

end Start

end KeyedLog
