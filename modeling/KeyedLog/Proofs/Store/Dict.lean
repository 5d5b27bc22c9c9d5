import KeyedLog.Proofs.Assoc
import KeyedLog.Proofs.Store.Contents
import KeyedLog.Store.Dict

/-!
# What the store in memory holds

Each bucket holds entries of its own digest only, and no key twice.
-/
namespace KeyedLog.Dict

def bucketOf (d : Dict) (name : String) : List Entry := (Assoc.get? name d.buckets).getD []

/-! ## One bucket -/

section Bucket

variable {e : Entry} {entries : List Entry}

theorem mem_replace {x : Entry} (h : x ∈ replace e entries) : x = e ∨ x ∈ entries := by
  induction entries with
  | nil => simpa [replace] using h
  | cons old rest ih =>
    rw [replace] at h
    split at h
    · cases List.mem_cons.mp h with
      | inl h => exact .inl h
      | inr h => exact .inr (List.mem_cons_of_mem _ h)
    · cases List.mem_cons.mp h with
      | inl h => exact .inr (h ▸ List.mem_cons_self)
      | inr h => exact (ih h).imp_right (List.mem_cons_of_mem _)

theorem nodup_replace (h : (entries.map Entry.key).Nodup) :
    ((replace e entries).map Entry.key).Nodup := by
  induction entries with
  | nil => simp [replace]
  | cons old rest ih =>
    rw [List.map_cons, List.nodup_cons] at h
    rw [replace]
    split
    · next hkey => rw [List.map_cons, List.nodup_cons, ← hkey]; exact h
    · next hkey =>
      rw [List.map_cons, List.nodup_cons]
      refine ⟨?_, ih h.2⟩
      intro hmem
      obtain ⟨x, hx, hxkey⟩ := List.mem_map.mp hmem
      cases mem_replace hx with
      | inl heq => exact hkey (by rw [← hxkey, heq])
      | inr hrest => exact h.1 (hxkey ▸ List.mem_map_of_mem hrest)

theorem find?_replace (key : Bytes) :
    (replace e entries).find? (·.key = key) =
      if key = e.key then some e else entries.find? (·.key = key) := by
  induction entries with
  | nil =>
    by_cases hkey : key = e.key
    · simp [replace, hkey]
    · simp [replace, Ne.symm hkey, hkey]
  | cons old rest ih =>
    rw [replace]
    by_cases hold : old.key = e.key
    · rw [if_pos hold]
      by_cases hkey : key = e.key
      · simp [hkey]
      · have hne : e.key ≠ key := Ne.symm hkey
        simp [hkey, hold, hne]
    · rw [if_neg hold]
      by_cases hkey : old.key = key
      · have hne : key ≠ e.key := hkey ▸ hold
        simp [hkey, hne]
      · simp [hkey, ih]

theorem find?_filter_ne (key k : Bytes) :
    (entries.filter (·.key ≠ key)).find? (·.key = k) =
      if k = key then none else entries.find? (·.key = k) := by
  split
  · next h =>
    apply List.find?_eq_none.mpr
    intro x hx
    simpa [h] using (List.mem_filter.mp hx).2
  · next h =>
    induction entries with
    | nil => rfl
    | cons old rest ih =>
      by_cases hold : old.key = key
      · have hne : old.key ≠ k := by
          rintro rfl
          exact h hold
        simpa [hold, Ne.symm h] using ih
      · by_cases hk : old.key = k
        · simp [hk, h]
        · simpa [hold, hk] using ih

end Bucket

/-! ## All buckets -/

theorem get?_eq (d : Dict) (key : Bytes) :
    d.get? key = ((d.bucketOf (digest key)).find? (·.key = key)).map Entry.stored := rfl

theorem bucketOf_put (d : Dict) (e : Entry) (name : String) :
    (d.put e).bucketOf name =
      if name = digest e.key then replace e (d.bucketOf name) else d.bucketOf name := by
  by_cases hname : name = digest e.key
  · rw [if_pos hname, hname, bucketOf, put, Assoc.get?_put_self]
    rfl
  · rw [if_neg hname, bucketOf, put, Assoc.get?_put_of_ne hname, bucketOf]

theorem bucketOf_remove (d : Dict) (key : Bytes) (name : String) :
    (d.remove key).bucketOf name =
      if name = digest key then (d.bucketOf name).filter (·.key ≠ key) else d.bucketOf name := by
  have hbucket : d.bucket key = d.bucketOf (digest key) := rfl
  by_cases hname : name = digest key
  · rw [if_pos hname, hname, remove, hbucket]
    split
    · next hempty =>
      rw [bucketOf, Assoc.get?_erase_self, List.isEmpty_iff.mp hempty]
      rfl
    · rw [bucketOf, Assoc.get?_put_self]
      rfl
  · rw [if_neg hname, remove]
    split
    · rw [bucketOf, Assoc.get?_erase_of_ne hname, bucketOf]
    · rw [bucketOf, Assoc.get?_put_of_ne hname, bucketOf]

/-- A store in memory that holds given contents. -/
structure Holds (d : Dict) (m : Contents) : Prop where
  buckets : (d.buckets.map Prod.fst).Nodup
  keys : ∀ name, ((d.bucketOf name).map Entry.key).Nodup
  digests : ∀ name, ∀ e ∈ d.bucketOf name, digest e.key = name
  values : ∀ key, d.get? key = m.get? key
  partitions : (d.offsets.map fun row => (row.topic, row.partition)).Nodup
  rows : ∀ row, row ∈ d.offsets ↔ m.offset? row.topic row.partition = some row.offset

theorem holds_empty : Holds {} {} where
  buckets := List.nodup_nil
  keys := fun _ => List.nodup_nil
  digests := fun _ _ h => by cases h
  values := fun _ => by rw [Contents.get?_empty]; rfl
  partitions := List.nodup_nil
  rows := fun _ => by simp

/-! ## Rows -/

/-- What a row is about. -/
def rowKey (row : Position) : String × Int := (row.topic, row.partition)

theorem samePartition_iff {a b : Position} : a.samePartition b = true ↔ rowKey a = rowKey b := by
  simp [Position.samePartition, rowKey]

section Rows

variable {p : Position} {rows : List Position}

theorem map_rowKey_setRow :
    (setRow p rows).map rowKey =
      if rowKey p ∈ rows.map rowKey then rows.map rowKey else rows.map rowKey ++ [rowKey p] := by
  induction rows with
  | nil => simp [setRow]
  | cons row rest ih =>
    rw [setRow]
    split
    · next hsame =>
      rw [samePartition_iff] at hsame
      rw [if_pos (by simp [hsame])]
      rfl
    · next hsame =>
      rw [samePartition_iff] at hsame
      rw [List.map_cons, ih, List.map_cons]
      by_cases hmem : rowKey p ∈ rest.map rowKey
      · rw [if_pos hmem, if_pos (List.mem_cons_of_mem _ hmem)]
      · rw [if_neg hmem, if_neg (by simp [Ne.symm hsame, hmem]), List.cons_append]

theorem nodup_setRow (h : (rows.map rowKey).Nodup) : ((setRow p rows).map rowKey).Nodup := by
  rw [map_rowKey_setRow]
  split
  · exact h
  · next hp => exact h.append (List.nodup_singleton _) (List.disjoint_singleton.mpr hp)

theorem mem_setRow (h : (rows.map rowKey).Nodup) (row : Position) :
    row ∈ setRow p rows ↔ row = p ∨ row ∈ rows ∧ rowKey row ≠ rowKey p := by
  induction rows with
  | nil => simp [setRow]
  | cons old rest ih =>
    rw [List.map_cons, List.nodup_cons] at h
    rw [setRow]
    split
    · next hsame =>
      rw [samePartition_iff] at hsame
      have hset : { old with offset := p.offset } = p := by
        simp only [rowKey, Prod.mk.injEq] at hsame
        cases p
        simp_all
      rw [hset, List.mem_cons, List.mem_cons]
      constructor
      · rintro (rfl | hrest)
        · exact .inl rfl
        · refine .inr ⟨.inr hrest, ?_⟩
          intro hkey
          exact h.1 (hsame ▸ hkey ▸ List.mem_map_of_mem hrest)
      · rintro (rfl | ⟨rfl | hrest, hkey⟩)
        · exact .inl rfl
        · exact absurd hsame hkey
        · exact .inr hrest
    · next hsame =>
      rw [samePartition_iff] at hsame
      rw [List.mem_cons, List.mem_cons, ih h.2]
      constructor
      · rintro (rfl | rfl | ⟨hrest, hkey⟩)
        · exact .inr ⟨.inl rfl, hsame⟩
        · exact .inl rfl
        · exact .inr ⟨.inr hrest, hkey⟩
      · rintro (rfl | ⟨rfl | hrest, hkey⟩)
        · exact .inr (.inl rfl)
        · exact .inl rfl
        · exact .inr (.inr ⟨hrest, hkey⟩)

end Rows

/-! ## Each operation -/

namespace Holds

variable {d : Dict} {m : Contents}

theorem put (h : d.Holds m) (e : Entry) : (d.put e).Holds (m.put e.key e.stored) where
  buckets := Assoc.nodup_put h.buckets _ _
  keys := by
    intro name
    rw [bucketOf_put]
    split
    · exact nodup_replace (h.keys name)
    · exact h.keys name
  digests := by
    intro name x hx
    rw [bucketOf_put] at hx
    split at hx
    · next hname =>
      cases mem_replace hx with
      | inl heq => rw [heq, hname]
      | inr hold => exact h.digests name x hold
    · exact h.digests name x hx
  values := by
    intro key
    rw [get?_eq, bucketOf_put, Contents.get?_put, ← h.values, get?_eq]
    by_cases hkey : key = e.key
    · rw [if_pos hkey, if_pos (by rw [hkey]), find?_replace, if_pos hkey, Option.map_some]
    · rw [if_neg hkey]
      split
      · rw [find?_replace, if_neg hkey]
      · rfl
  partitions := h.partitions
  rows := h.rows

theorem remove (h : d.Holds m) (key : Bytes) : (d.remove key).Holds (m.remove key) where
  buckets := by
    rw [Dict.remove]
    split
    · exact Assoc.nodup_erase h.buckets _
    · exact Assoc.nodup_put h.buckets _ _
  keys := by
    intro name
    rw [bucketOf_remove]
    split
    · exact (h.keys name).sublist (List.filter_sublist.map _)
    · exact h.keys name
  digests := by
    intro name x hx
    rw [bucketOf_remove] at hx
    split at hx
    · exact h.digests name x (List.mem_of_mem_filter hx)
    · exact h.digests name x hx
  values := by
    intro k
    rw [get?_eq, bucketOf_remove, Contents.get?_remove, ← h.values, get?_eq]
    by_cases hk : k = key
    · rw [if_pos hk, if_pos (by rw [hk]), find?_filter_ne, if_pos hk, Option.map_none]
    · rw [if_neg hk]
      split
      · rw [find?_filter_ne, if_neg hk]
      · rfl
  partitions := by
    rw [Dict.remove]
    split <;> exact h.partitions
  rows := by
    rw [Dict.remove]
    split <;> exact h.rows

theorem advance (h : d.Holds m) (p : Position) : (d.advance p).Holds (m.advance p) where
  buckets := h.buckets
  keys := h.keys
  digests := h.digests
  values := h.values
  partitions := nodup_setRow h.partitions
  rows := by
    intro row
    rw [Dict.advance, mem_setRow h.partitions, h.rows, Contents.offset?_advance]
    by_cases hkey : rowKey row = rowKey p
    · have hsame : row.topic = p.topic ∧ row.partition = p.partition := by
        simpa [rowKey] using hkey
      rw [if_pos hsame, Option.some.injEq]
      constructor
      · rintro (rfl | ⟨_, hne⟩)
        · rfl
        · exact absurd hkey hne
      · intro hoffset
        left
        cases row
        cases p
        simp_all
    · have hother : ¬(row.topic = p.topic ∧ row.partition = p.partition) := by
        simpa [rowKey] using hkey
      rw [if_neg hother]
      constructor
      · rintro (rfl | ⟨hrow, _⟩)
        · exact absurd rfl hkey
        · exact hrow
      · intro hrow
        exact .inr ⟨hrow, hkey⟩

theorem ledger (h : d.Holds m) : m.Lists d.ledger :=
  Contents.lists_sorted (h.partitions.of_map _) h.rows

theorem bucketOf_eq (h : d.Holds m) {name : String} {entries : List Entry}
    (hmem : (name, entries) ∈ d.buckets) : d.bucketOf name = entries := by
  rw [bucketOf, (Assoc.get?_eq_some_iff h.buckets).mpr hmem, Option.getD_some]

theorem mem_bucketOf (h : d.Holds m) {name : String} {e : Entry} :
    e ∈ d.bucketOf name ↔ ∃ entries, (name, entries) ∈ d.buckets ∧ e ∈ entries := by
  constructor
  · intro he
    cases hget : Assoc.get? name d.buckets with
    | none =>
      rw [bucketOf, hget] at he
      cases he
    | some entries =>
      have hmem := Assoc.mem_of_get? hget
      exact ⟨entries, hmem, h.bucketOf_eq hmem ▸ he⟩
  · rintro ⟨entries, hmem, he⟩
    rw [h.bucketOf_eq hmem]
    exact he

/-- The number of entries is the number of live keys. -/
theorem size (h : d.Holds m) : d.size = m.values.keys.card := by
  have hbucket : ∀ p ∈ d.buckets, d.bucketOf p.1 = p.2 := fun p hp => h.bucketOf_eq hp
  have hnodup : ((d.buckets.flatMap fun p => p.2).map Entry.key).Nodup := by
    rw [List.map_flatMap, List.nodup_flatMap]
    refine ⟨fun p hp => hbucket p hp ▸ h.keys p.1, ?_⟩
    apply (List.pairwise_map.mp h.buckets).imp_of_mem
    intro p q hp hq hne key hkey hkey'
    obtain ⟨e, he, rfl⟩ := List.mem_map.mp hkey
    obtain ⟨e', he', heq⟩ := List.mem_map.mp hkey'
    have hd := h.digests p.1 e (by rw [hbucket p hp]; exact he)
    have hd' := h.digests q.1 e' (by rw [hbucket q hq]; exact he')
    exact hne (by rw [← hd, ← hd', heq])
  have hkeys : m.values.keys = ((d.buckets.flatMap fun p => p.2).map Entry.key).toFinset := by
    ext key
    rw [Finmap.mem_keys, ← Finmap.lookup_isSome, List.mem_toFinset]
    change (m.get? key).isSome = true ↔ _
    rw [← h.values, get?_eq, Option.isSome_map, List.find?_isSome, List.mem_map]
    constructor
    · rintro ⟨e, he, hkey⟩
      obtain ⟨entries, hentries, hin⟩ := h.mem_bucketOf.mp he
      exact ⟨e, List.mem_flatMap.mpr ⟨_, hentries, hin⟩, of_decide_eq_true hkey⟩
    · rintro ⟨e, he, rfl⟩
      obtain ⟨⟨name, entries⟩, hentries, hin⟩ := List.mem_flatMap.mp he
      have hmem : e ∈ d.bucketOf name := h.mem_bucketOf.mpr ⟨entries, hentries, hin⟩
      exact ⟨e, by rw [h.digests name e hmem]; exact hmem, decide_eq_true rfl⟩
  rw [hkeys, List.toFinset_card_of_nodup hnodup, List.length_map]
  rfl

end Holds

end KeyedLog.Dict
