import KeyedLog.StartPosition
import Mathlib.Data.List.Nodup
import Mathlib.Data.List.Perm.Subperm

/-!
# All or nothing

A ledger is resumed if the partitions it has rows for are the assigned ones. Each of them starts at
its row then; otherwise each starts at the beginning. The order of the rows is of no account, nor
are the rows of other topics.
-/
namespace KeyedLog

namespace Position

/-- No partition of a topic has two rows. -/
def Distinct (ledger : List Position) : Prop :=
  (ledger.map fun row => (row.topic, row.partition)).Nodup

/-- The partitions of a topic that have rows. -/
def partitionsOf (ledger : List Position) (topic : String) : List Int :=
  (ledger.filter fun row => row.topic == topic).map Position.partition

variable {ledger others : List Position} {topic : String} {i offset : Int}

theorem mem_partitionsOf :
    i ∈ partitionsOf ledger topic ↔ ∃ row ∈ ledger, row.topic = topic ∧ row.partition = i := by
  simp only [partitionsOf, List.mem_map, List.mem_filter, beq_iff_eq, and_assoc]

theorem Distinct.eq_of_same (h : Distinct ledger) {a b : Position} (ha : a ∈ ledger)
    (hb : b ∈ ledger) (htopic : a.topic = b.topic) (hpartition : a.partition = b.partition) :
    a = b :=
  List.inj_on_of_nodup_map h ha hb (Prod.ext htopic hpartition)

theorem Distinct.filter (h : Distinct ledger) (p : Position → Bool) : Distinct (ledger.filter p) :=
  h.sublist ((List.filter_sublist).map _)

theorem Distinct.perm (h : Distinct ledger) (hperm : ledger.Perm others) : Distinct others :=
  (hperm.map _).nodup_iff.mp h

theorem Distinct.nodup_partitionsOf (h : Distinct ledger) (topic : String) :
    (partitionsOf ledger topic).Nodup := by
  apply List.Nodup.map_on _ (List.Nodup.of_map _ h |>.filter _)
  intro a ha b hb hpartition
  simp only [List.mem_filter, beq_iff_eq] at ha hb
  exact h.eq_of_same ha.1 hb.1 (ha.2.trans hb.2.symm) hpartition

theorem offsetOf?_eq_some_iff (h : Distinct ledger) :
    offsetOf? ledger topic i = some offset ↔ (⟨topic, i, offset⟩ : Position) ∈ ledger := by
  rw [offsetOf?, Option.map_eq_some_iff]
  constructor
  · rintro ⟨row, hfind, rfl⟩
    have hsame := List.find?_some hfind
    simp only [Bool.and_eq_true, beq_iff_eq] at hsame
    obtain ⟨rfl, rfl⟩ := hsame
    exact List.mem_of_find?_eq_some hfind
  · intro hmem
    cases hfind : ledger.find? fun row => row.topic == topic && row.partition == i with
    | none =>
      have hnot := List.find?_eq_none.mp hfind _ hmem
      simp at hnot
    | some row =>
      have hsame := List.find?_some hfind
      simp only [Bool.and_eq_true, beq_iff_eq] at hsame
      have hrow := h.eq_of_same (List.mem_of_find?_eq_some hfind) hmem hsame.1 hsame.2
      exact ⟨row, rfl, congrArg Position.offset hrow⟩

theorem isSome_offsetOf? :
    (offsetOf? ledger topic i).isSome ↔ i ∈ partitionsOf ledger topic := by
  rw [offsetOf?, Option.isSome_map, List.find?_isSome, mem_partitionsOf]
  simp only [Bool.and_eq_true, beq_iff_eq]

/-- The rows of other topics are not looked at. -/
theorem offsetOf?_filter (ledger : List Position) (topic : String) (i : Int) :
    offsetOf? (ledger.filter fun row => row.topic == topic) topic i = offsetOf? ledger topic i := by
  rw [offsetOf?, offsetOf?, List.find?_filter]
  congr 2
  funext row
  rw [Bool.decide_and, Bool.decide_eq_true, Bool.decide_eq_true, ← Bool.and_assoc, Bool.and_self]

theorem offsetOf?_perm (h : Distinct ledger) (hperm : ledger.Perm others) (topic : String)
    (i : Int) : offsetOf? ledger topic i = offsetOf? others topic i := by
  apply Option.ext
  intro offset
  rw [offsetOf?_eq_some_iff h, offsetOf?_eq_some_iff (h.perm hperm), hperm.mem_iff]

end Position

namespace Start

variable {ledger others : List Position} {topic : String} {assigned : List Int}

/-- The partitions of a topic that have rows are the assigned ones. -/
def Matches (topic : String) (assigned : List Int) (ledger : List Position) : Prop :=
  ∀ i, i ∈ assigned ↔ i ∈ Position.partitionsOf ledger topic

/-- A partition starts at its row. -/
def AtRow (topic : String) (ledger : List Position) (e : PartitionStart) : Prop :=
  ∃ row ∈ ledger, row.topic = topic ∧ row.partition = e.partition ∧ e.start = .atOffset row.offset

theorem recorded?_eq_some {offset : Int → Int}
    (h : ∀ i ∈ assigned, Position.offsetOf? ledger topic i = some (offset i)) :
    recorded? topic ledger assigned = some (assigned.map fun i => ⟨i, .atOffset (offset i)⟩) := by
  induction assigned with
  | nil => rfl
  | cons i rest ih =>
    rw [recorded?, h i List.mem_cons_self, ih fun j hj => h j (List.mem_cons_of_mem _ hj)]
    rfl

theorem forall_mem_of_recorded? (h : (recorded? topic ledger assigned).isSome) :
    ∀ i ∈ assigned, i ∈ Position.partitionsOf ledger topic := by
  induction assigned with
  | nil => nofun
  | cons i rest ih =>
    rw [recorded?] at h
    split at h
    · next hrow hrest =>
      rw [List.forall_mem_cons]
      refine ⟨Position.isSome_offsetOf?.mp (by rw [hrow]; rfl), ih (by rw [hrest]; rfl)⟩
    · cases h

theorem recorded?_congr
    (h : ∀ i, Position.offsetOf? ledger topic i = Position.offsetOf? others topic i) :
    recorded? topic ledger assigned = recorded? topic others assigned := by
  induction assigned with
  | nil => rfl
  | cons i rest ih => rw [recorded?, recorded?, h, ih]

/-- The offsets that are resumed where the partitions match. -/
theorem resumed?_of_matches (hassigned : assigned.Nodup) (hledger : Position.Distinct ledger)
    (h : Matches topic assigned ledger) :
    resumed? topic assigned ledger =
      some (assigned.map fun i => ⟨i, .atOffset ((Position.offsetOf? ledger topic i).getD 0)⟩) := by
  have hperm : assigned.Perm (Position.partitionsOf ledger topic) :=
    (List.perm_ext_iff_of_nodup hassigned (hledger.nodup_partitionsOf topic)).mpr h
  have hlength : (ledger.filter fun row => row.topic == topic).length = assigned.length := by
    rw [hperm.length_eq, Position.partitionsOf, List.length_map]
  rw [resumed?, if_pos hlength]
  apply recorded?_eq_some
  intro i hi
  obtain ⟨offset, hrow⟩ :=
    Option.isSome_iff_exists.mp (Position.isSome_offsetOf?.mpr ((h i).mp hi))
  rw [hrow, Option.getD_some]

/-- With as many rows as assigned partitions, and one for each of these, there is none left for
another partition. -/
theorem isSome_resumed?_iff (hassigned : assigned.Nodup) (hledger : Position.Distinct ledger) :
    (resumed? topic assigned ledger).isSome ↔ Matches topic assigned ledger := by
  constructor
  · intro h
    rw [resumed?] at h
    split at h
    · next hlength =>
      have hsubperm := List.subperm_of_subset hassigned (forall_mem_of_recorded? h)
      have hle : (Position.partitionsOf ledger topic).length ≤ assigned.length := by
        rw [Position.partitionsOf, List.length_map]
        exact Nat.le_of_eq hlength
      exact fun i => (hsubperm.perm_of_length_le hle).mem_iff
    · cases h
  · intro h
    rw [resumed?_of_matches hassigned hledger h]
    rfl

theorem resolve_of_matches (hassigned : assigned.Nodup) (hledger : Position.Distinct ledger)
    (h : Matches topic assigned ledger) :
    resolve topic assigned ledger =
      assigned.map fun i => ⟨i, .atOffset ((Position.offsetOf? ledger topic i).getD 0)⟩ := by
  rw [resolve, resumed?_of_matches hassigned hledger h, Option.getD_some]

theorem resolve_of_not_matches (hassigned : assigned.Nodup) (hledger : Position.Distinct ledger)
    (h : ¬ Matches topic assigned ledger) :
    resolve topic assigned ledger = assigned.map fun i => ⟨i, .beginning⟩ := by
  rw [← isSome_resumed?_iff hassigned hledger, Option.not_isSome_iff_eq_none] at h
  rw [resolve, h, Option.getD_none]

/-- Every assigned partition starts somewhere, whatever is in the ledger. -/
theorem map_partition_resolve (hassigned : assigned.Nodup) (hledger : Position.Distinct ledger) :
    (resolve topic assigned ledger).map PartitionStart.partition = assigned := by
  by_cases hmatches : Matches topic assigned ledger
  · rw [resolve_of_matches hassigned hledger hmatches, List.map_map]
    exact List.map_id _
  · rw [resolve_of_not_matches hassigned hledger hmatches, List.map_map]
    exact List.map_id _

/-- Only the rows of the topic count, in whatever order they come. -/
theorem resolve_congr (hledger : Position.Distinct ledger)
    (hperm : (others.filter fun row => row.topic == topic).Perm
      (ledger.filter fun row => row.topic == topic)) :
    resolve topic assigned others = resolve topic assigned ledger := by
  have hoffset : ∀ i, Position.offsetOf? others topic i = Position.offsetOf? ledger topic i := by
    intro i
    rw [← Position.offsetOf?_filter others, ← Position.offsetOf?_filter ledger]
    exact (Position.offsetOf?_perm (hledger.filter _) hperm.symm topic i).symm
  rw [resolve, resolve, resumed?, resumed?, hperm.length_eq, recorded?_congr hoffset]

/-- The starts are those of the assigned partitions, in their order. All of them are at the rows of
their partitions, or all at the beginning: at the rows if the partitions with rows are the assigned
ones, and only then. Nothing else about the ledger counts. -/
theorem resolve_all_or_none (topic : String) {assigned : List Int} (hassigned : assigned.Nodup)
    {ledger : List Position} (hledger : Position.Distinct ledger) :
    let starts := resolve topic assigned ledger
    starts.map PartitionStart.partition = assigned ∧
    (Matches topic assigned ledger ∧ (∀ e ∈ starts, AtRow topic ledger e) ∨
      ¬ Matches topic assigned ledger ∧ ∀ e ∈ starts, e.start = .beginning) ∧
    ((resumed? topic assigned ledger).isSome ↔ Matches topic assigned ledger) ∧
    (∀ e ∈ starts, AtRow topic ledger e ↔ Matches topic assigned ledger) ∧
    ∀ others : List Position,
      (others.filter fun row => row.topic == topic).Perm
          (ledger.filter fun row => row.topic == topic) →
        resolve topic assigned others = starts := by
  intro starts
  have hcases : Matches topic assigned ledger ∧ (∀ e ∈ starts, AtRow topic ledger e) ∨
      ¬ Matches topic assigned ledger ∧ ∀ e ∈ starts, e.start = .beginning := by
    by_cases hmatches : Matches topic assigned ledger
    · refine .inl ⟨hmatches, fun e he => ?_⟩
      simp only [starts, resolve_of_matches hassigned hledger hmatches, List.mem_map] at he
      obtain ⟨i, hi, rfl⟩ := he
      obtain ⟨offset, hrow⟩ :=
        Option.isSome_iff_exists.mp (Position.isSome_offsetOf?.mpr ((hmatches i).mp hi))
      refine ⟨⟨topic, i, offset⟩, (Position.offsetOf?_eq_some_iff hledger).mp hrow, rfl, rfl, ?_⟩
      rw [hrow, Option.getD_some]
    · refine .inr ⟨hmatches, fun e he => ?_⟩
      simp only [starts, resolve_of_not_matches hassigned hledger hmatches, List.mem_map] at he
      obtain ⟨i, -, rfl⟩ := he
      rfl
  refine ⟨map_partition_resolve hassigned hledger, hcases, isSome_resumed?_iff hassigned hledger,
    fun e he => ?_, fun others => resolve_congr hledger⟩
  rcases hcases with ⟨hmatches, hrows⟩ | ⟨hnot, hbeginning⟩
  · exact iff_of_true (hrows e he) hmatches
  · refine iff_of_false ?_ hnot
    rintro ⟨row, -, -, -, hrow⟩
    rw [hbeginning e he] at hrow
    cases hrow

/-- Two partitions are resumed from rows in another order, among them one of another topic. -/
theorem resolve_all_or_none_shuffled :
    Position.Distinct [⟨"kv", 1, 7⟩, ⟨"other", 9, 1⟩, ⟨"kv", 0, 3⟩] ∧
      Matches "kv" [0, 1] [⟨"kv", 1, 7⟩, ⟨"other", 9, 1⟩, ⟨"kv", 0, 3⟩] ∧
      ∀ e ∈ resolve "kv" [0, 1] [⟨"kv", 1, 7⟩, ⟨"other", 9, 1⟩, ⟨"kv", 0, 3⟩],
        AtRow "kv" [⟨"kv", 1, 7⟩, ⟨"other", 9, 1⟩, ⟨"kv", 0, 3⟩] e := by
  have hdistinct : Position.Distinct [⟨"kv", 1, 7⟩, ⟨"other", 9, 1⟩, ⟨"kv", 0, 3⟩] := by
    unfold Position.Distinct
    decide
  obtain ⟨-, -, hresumed, hrows, -⟩ :=
    resolve_all_or_none "kv" (show ([0, 1] : List Int).Nodup by decide) hdistinct
  have hmatches := hresumed.mp (by decide)
  exact ⟨hdistinct, hmatches, fun e he => (hrows e he).mpr hmatches⟩

end Start

end KeyedLog
