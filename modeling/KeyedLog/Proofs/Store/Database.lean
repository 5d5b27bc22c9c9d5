import KeyedLog.Proofs.Assoc
import KeyedLog.Proofs.Store.Contents
import KeyedLog.Store.Database

/-!
# What the store in a database holds

The tables of an open database, in which no key and no partition has two rows.
-/
namespace KeyedLog

namespace Tables

structure Holds (t : Tables) (m : Contents) : Prop where
  keys : (t.values.map Prod.fst).Nodup
  partitions : (t.offsets.map Prod.fst).Nodup
  values : ∀ key, t.get? key = m.get? key
  offsets : ∀ topic partition, Assoc.get? (topic, partition) t.offsets = m.offset? topic partition

theorem holds_empty : Holds {} {} where
  keys := List.nodup_nil
  partitions := List.nodup_nil
  values := fun _ => by rw [Contents.get?_empty]; rfl
  offsets := fun _ _ => by rw [Contents.offset?_empty]; rfl

namespace Holds

variable {t : Tables} {m : Contents}

theorem put (h : t.Holds m) (key : Bytes) (stored : StoredValue) :
    (t.put key stored).Holds (m.put key stored) where
  keys := Assoc.nodup_put h.keys key stored
  partitions := h.partitions
  values := by
    intro k
    rw [Contents.get?_put, Tables.get?, Tables.put]
    by_cases hk : k = key
    · rw [if_pos hk, hk, Assoc.get?_put_self]
    · rw [if_neg hk, Assoc.get?_put_of_ne hk]
      exact h.values k
  offsets := h.offsets

theorem remove (h : t.Holds m) (key : Bytes) : (t.remove key).Holds (m.remove key) where
  keys := Assoc.nodup_erase h.keys key
  partitions := h.partitions
  values := by
    intro k
    rw [Contents.get?_remove, Tables.get?, Tables.remove]
    by_cases hk : k = key
    · rw [if_pos hk, hk, Assoc.get?_erase_self]
    · rw [if_neg hk, Assoc.get?_erase_of_ne hk]
      exact h.values k
  offsets := h.offsets

theorem advance (h : t.Holds m) (p : Position) : (t.advance p).Holds (m.advance p) where
  keys := h.keys
  partitions := Assoc.nodup_put h.partitions _ _
  values := h.values
  offsets := by
    intro topic partition
    rw [Contents.offset?_advance, Tables.advance]
    by_cases hsame : topic = p.topic ∧ partition = p.partition
    · rw [if_pos hsame, hsame.1, hsame.2, Assoc.get?_put_self]
    · have hne : (topic, partition) ≠ (p.topic, p.partition) := by simpa using hsame
      rw [if_neg hsame, Assoc.get?_put_of_ne hne]
      exact h.offsets topic partition

theorem ledger (h : t.Holds m) : m.Lists t.ledger := by
  apply Contents.lists_sorted
  · have hpairs : t.offsets.Nodup := h.partitions.of_map _
    apply hpairs.map
    rintro ⟨⟨_, _⟩, _⟩ ⟨⟨_, _⟩, _⟩ heq
    simp_all
  · rintro ⟨topic, partition, offset⟩
    rw [← h.offsets, Assoc.get?_eq_some_iff h.partitions]
    simp

end Holds

end Tables

namespace Database

theorem openAt_closed {files : FileTree} {location : String} {password : Option String}
    {d : Database} (h : (openAt files location password).1 = .ok d) : d.closed = false := by
  simp only [openAt] at h
  repeat' split at h
  all_goals simp only [Except.ok.injEq, reduceCtorEq] at h
  all_goals rw [← h]

/-- An open database that holds given contents. -/
structure Holds (d : Database) (m : Contents) : Prop where
  opened : d.closed = false
  tables : d.tables.Holds m

/-- Nothing comes in the way of a change of an open database. -/
theorem Holds.change {d : Database} {m n : Contents} (h : d.Holds m) (files : FileTree)
    {f : Tables → Tables} (hf : (f d.tables).Holds n) :
    ∃ d' files', d.change files f = (.ok (), d', files') ∧ d'.Holds n := by
  refine ⟨{ d with tables := f d.tables }, (d.change files f).2.2, ?_, h.opened, hf⟩
  simp only [Database.change, h.opened]
  rfl

theorem Holds.ask {α : Type} {d : Database} {m : Contents} (h : d.Holds m) (f : Tables → α) :
    d.ask f = .ok (f d.tables) := by
  rw [Database.ask, h.opened]
  rfl

end Database

end KeyedLog
