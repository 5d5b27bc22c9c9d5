import KeyedLog.Digest
import KeyedLog.Tables
import KeyedLog.Text.Decimal
import KeyedLog.Text.Utf8
import Mathlib.Data.Finmap
import Mathlib.Data.List.Nodup

/-!
# What a store holds

The contents of a store apart from its form: a finite map from keys to what is stored under them,
and a finite map from partitions to offsets. The ledger of the second map lists its rows by the
bytes of the topic, then by partition.
-/
namespace KeyedLog

namespace Position

/-- One row comes before another in a ledger. -/
def Before (a b : Position) : Prop :=
  Utf8.encode a.topic < Utf8.encode b.topic ∨ a.topic = b.topic ∧ a.partition < b.partition

theorem atMost_iff {a b : Position} :
    atMost a b = true ↔ Before a b ∨ a.topic = b.topic ∧ a.partition = b.partition := by
  have htopic : Utf8.encode a.topic = Utf8.encode b.topic ↔ a.topic = b.topic :=
    ⟨Utf8.encode_inj, congrArg _⟩
  have hle : a.partition ≤ b.partition ↔ a.partition < b.partition ∨ a.partition = b.partition := by
    omega
  simp only [Utf8.encode] at htopic
  simp only [atMost, Before, Utf8.encode, Bool.or_eq_true, Bool.and_eq_true, decide_eq_true_eq,
    beq_iff_eq, htopic, hle]
  tauto

theorem Before.trans {a b c : Position} (hab : a.Before b) (hbc : b.Before c) : a.Before c := by
  rcases hab with hab | ⟨htopic, hab⟩
  · rcases hbc with hbc | ⟨htopic', _⟩
    · exact .inl (List.lt_trans hab hbc)
    · exact .inl (htopic' ▸ hab)
  · rcases hbc with hbc | ⟨htopic', hbc⟩
    · exact .inl (htopic ▸ hbc)
    · exact .inr ⟨htopic.trans htopic', by omega⟩

theorem Before.irrefl (a : Position) : ¬a.Before a := by
  rintro (h | ⟨_, h⟩)
  · exact List.lt_irrefl _ h
  · omega

theorem Before.ne {a b : Position} (h : a.Before b) : a ≠ b := by
  rintro rfl
  exact Before.irrefl a h

theorem Before.total (a b : Position) :
    a.Before b ∨ (a.topic = b.topic ∧ a.partition = b.partition) ∨ b.Before a := by
  by_cases htopic : a.topic = b.topic
  · have hpartition := lt_trichotomy a.partition b.partition
    simp only [Before, htopic, true_and]
    tauto
  · have hne : Utf8.encode a.topic ≠ Utf8.encode b.topic := fun h => htopic (Utf8.encode_inj h)
    by_cases hlt : Utf8.encode a.topic < Utf8.encode b.topic
    · exact .inl (.inl hlt)
    · by_cases hgt : Utf8.encode b.topic < Utf8.encode a.topic
      · exact .inr (.inr (.inl hgt))
      · exact absurd (List.le_antisymm hgt hlt) hne

end Position

structure Contents where
  values : Finmap fun _ : Bytes => StoredValue := ∅
  offsets : Finmap fun _ : String × Int => Int := ∅

namespace Contents

def put (m : Contents) (key : Bytes) (stored : StoredValue) : Contents :=
  { m with values := m.values.insert key stored }

def remove (m : Contents) (key : Bytes) : Contents := { m with values := m.values.erase key }

def advance (m : Contents) (p : Position) : Contents :=
  { m with offsets := m.offsets.insert (p.topic, p.partition) p.offset }

def get? (m : Contents) (key : Bytes) : Option StoredValue := m.values.lookup key

def offset? (m : Contents) (topic : String) (partition : Int) : Option Int :=
  m.offsets.lookup (topic, partition)

variable (m : Contents)

@[simp] theorem get?_empty (key : Bytes) : ({} : Contents).get? key = none :=
  Finmap.lookup_empty key

@[simp] theorem offset?_empty (topic : String) (partition : Int) :
    ({} : Contents).offset? topic partition = none := Finmap.lookup_empty _

theorem get?_put (key : Bytes) (stored : StoredValue) (k : Bytes) :
    (m.put key stored).get? k = if k = key then some stored else m.get? k := by
  split
  · next h => rw [h]; exact Finmap.lookup_insert m.values
  · next h => exact Finmap.lookup_insert_of_ne m.values h

theorem get?_remove (key k : Bytes) :
    (m.remove key).get? k = if k = key then none else m.get? k := by
  split
  · next h => rw [h]; exact Finmap.lookup_erase key m.values
  · next h => exact Finmap.lookup_erase_ne h

theorem get?_put_eq_update (key : Bytes) (stored : StoredValue) :
    (m.put key stored).get? = Function.update m.get? key (some stored) := by
  funext k
  rw [get?_put, Function.update_apply]

theorem get?_remove_eq_update (key : Bytes) :
    (m.remove key).get? = Function.update m.get? key none := by
  funext k
  rw [get?_remove, Function.update_apply]

theorem offset?_advance (p : Position) (topic : String) (partition : Int) :
    (m.advance p).offset? topic partition =
      if topic = p.topic ∧ partition = p.partition then some p.offset
      else m.offset? topic partition := by
  split
  · next h => rw [h.1, h.2]; exact Finmap.lookup_insert m.offsets
  · next h => exact Finmap.lookup_insert_of_ne m.offsets (by simpa using h)

@[simp] theorem offset?_put (key : Bytes) (stored : StoredValue) :
    (m.put key stored).offset? = m.offset? := rfl

@[simp] theorem offset?_remove (key : Bytes) : (m.remove key).offset? = m.offset? := rfl

@[simp] theorem get?_advance (p : Position) : (m.advance p).get? = m.get? := rfl

/-! ## The ledger -/

/-- The rows of the ledger, each once and in order. -/
structure Lists (rows : List Position) : Prop where
  ordered : rows.Pairwise Position.Before
  mem : ∀ row, row ∈ rows ↔ m.offset? row.topic row.partition = some row.offset

variable {m}

/-- A ledger can be listed in one way only. -/
theorem Lists.unique {rows others : List Position} (h : m.Lists rows) (h' : m.Lists others) :
    rows = others := by
  have hperm : rows.Perm others := by
    rw [List.perm_ext_iff_of_nodup (h.ordered.imp Position.Before.ne)
      (h'.ordered.imp Position.Before.ne)]
    intro row
    rw [h.mem, h'.mem]
  apply hperm.eq_of_pairwise _ h.ordered h'.ordered
  intro a b _ _ hab hba
  exact absurd (hab.trans hba) (Position.Before.irrefl a)

/-- Rows that are found in any order are listed by sorting them. -/
theorem lists_sorted {rows : List Position} (hnodup : rows.Nodup)
    (hmem : ∀ row, row ∈ rows ↔ m.offset? row.topic row.partition = some row.offset) :
    m.Lists (Position.sorted rows) := by
  have hperm : (Position.sorted rows).Perm rows := List.mergeSort_perm _ _
  have hsorted : (Position.sorted rows).Pairwise fun a b => Position.atMost a b = true := by
    apply List.pairwise_mergeSort
    · intro a b c hab hbc
      rw [Position.atMost_iff] at hab hbc ⊢
      rcases hab with hab | ⟨htopic, hpartition⟩
      · rcases hbc with hbc | ⟨htopic', hpartition'⟩
        · exact .inl (hab.trans hbc)
        · left
          simpa only [Position.Before, ← htopic', ← hpartition'] using hab
      · simpa only [Position.Before, htopic, hpartition] using hbc
    · intro a b
      rw [Bool.or_eq_true, Position.atMost_iff, Position.atMost_iff]
      rcases Position.Before.total a b with h | ⟨h, h'⟩ | h
      · exact .inl (.inl h)
      · exact .inl (.inr ⟨h, h'⟩)
      · exact .inr (.inl h)
  have hmem' : ∀ row, row ∈ Position.sorted rows ↔
      m.offset? row.topic row.partition = some row.offset := by
    intro row
    rw [hperm.mem_iff, hmem]
  refine ⟨?_, hmem'⟩
  apply (hsorted.and (hperm.nodup_iff.mpr hnodup)).imp_of_mem
  rintro a b ha hb ⟨hle, hne⟩
  rw [Position.atMost_iff] at hle
  rcases hle with hle | ⟨htopic, hpartition⟩
  · exact hle
  · -- equal partitions have one offset, so the rows would be the same
    rw [hmem'] at ha hb
    rw [htopic, hpartition, hb, Option.some.injEq] at ha
    have heq : a = b := by
      cases a
      cases b
      simp_all
    exact absurd heq hne

/-! ## Room -/

/-- The keys that share a digest. -/
def keysIn (m : Contents) (d : String) : Finset Bytes :=
  m.values.keys.filter fun key => digest key = d

/-- The topics that share a digest. -/
def topicsIn (m : Contents) (d : String) : Finset String :=
  (m.offsets.keys.image Prod.fst).filter fun topic => digest (Utf8.encode topic) = d

theorem mem_keysIn {key : Bytes} {d : String} :
    key ∈ m.keysIn d ↔ (m.get? key).isSome ∧ digest key = d := by
  rw [keysIn, Finset.mem_filter, Finmap.mem_keys, ← Finmap.lookup_isSome]
  rfl

theorem keysIn_subset_put (key : Bytes) (stored : StoredValue) (d : String) :
    m.keysIn d ⊆ (m.put key stored).keysIn d := by
  intro k hk
  rw [mem_keysIn] at hk ⊢
  rw [get?_put]
  split
  · exact ⟨rfl, hk.2⟩
  · exact hk

/-- A new key is one more. -/
theorem card_keysIn_lt_put {key : Bytes} (hnew : m.get? key = none) (stored : StoredValue) :
    (m.keysIn (digest key)).card < ((m.put key stored).keysIn (digest key)).card := by
  apply Finset.card_lt_card
  refine ⟨keysIn_subset_put key stored _, fun hsub => ?_⟩
  have hkey := hsub (mem_keysIn.mpr ⟨by rw [get?_put, if_pos rfl]; rfl, rfl⟩)
  rw [mem_keysIn, hnew] at hkey
  cases hkey.1

theorem mem_topicsIn {topic d : String} :
    topic ∈ m.topicsIn d ↔
      (∃ partition, (m.offset? topic partition).isSome) ∧ digest (Utf8.encode topic) = d := by
  simp only [topicsIn, offset?, Finset.mem_filter, Finset.mem_image, Prod.exists,
    Finmap.mem_keys, ← Finmap.lookup_isSome]
  constructor
  · rintro ⟨⟨_, partition, hrow, rfl⟩, hd⟩
    exact ⟨⟨partition, hrow⟩, hd⟩
  · rintro ⟨⟨partition, hrow⟩, hd⟩
    exact ⟨⟨topic, partition, hrow, rfl⟩, hd⟩

/-- No digest is shared by more keys or topics than thirty-two bits can number. -/
structure Roomy (m : Contents) : Prop where
  keys : ∀ d, (m.keysIn d).card < 2 ^ 32
  topics : ∀ d, (m.topicsIn d).card < 2 ^ 32

/-- The numbers in the ledger have the widths they are kept with. -/
def InRange (m : Contents) : Prop :=
  ∀ topic partition offset, m.offset? topic partition = some offset →
    (Decimal.minI32 ≤ partition ∧ partition ≤ Decimal.maxI32) ∧
      Decimal.minI64 ≤ offset ∧ offset ≤ Decimal.maxI64

/-- Contents that a tree can hold. -/
structure Fits (m : Contents) : Prop extends Roomy m where
  ranges : m.InRange

theorem fits_empty : Fits {} where
  keys := by
    intro d
    have hkeys : ({} : Contents).keysIn d = ∅ := by
      ext key
      simp [mem_keysIn]
    rw [hkeys]
    decide
  topics := by
    intro d
    have htopics : ({} : Contents).topicsIn d = ∅ := by
      ext topic
      simp [mem_topicsIn]
    rw [htopics]
    decide
  ranges := by simp [InRange]

/-- Removing a key makes room. -/
theorem Fits.remove (h : m.Fits) (key : Bytes) : (m.remove key).Fits where
  keys := by
    intro d
    refine lt_of_le_of_lt (Finset.card_le_card ?_) (h.keys d)
    intro k
    rw [mem_keysIn, mem_keysIn, get?_remove]
    split
    · simp
    · exact id
  topics := h.topics
  ranges := h.ranges

end Contents

end KeyedLog
