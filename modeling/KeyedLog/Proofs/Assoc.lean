import KeyedLog.Assoc
import Mathlib.Data.List.Nodup

/-!
# Association lists with distinct keys

While no key is bound twice, the bindings of a list are exactly what looking up yields, whatever
order they stand in.
-/
namespace KeyedLog.Assoc

variable {κ ν : Type} [DecidableEq κ]

theorem mem_of_get? {k : κ} {v : ν} {pairs : List (κ × ν)} (h : get? k pairs = some v) :
    (k, v) ∈ pairs := by
  induction pairs with
  | nil => cases h
  | cons p rest ih =>
    by_cases hk : k = p.1
    · subst hk
      simp only [get?, if_true, Option.some.injEq] at h
      subst h
      exact List.mem_cons_self
    · simp only [get?, if_neg hk] at h
      exact List.mem_cons_of_mem _ (ih h)

theorem get?_eq_some_iff {k : κ} {v : ν} {pairs : List (κ × ν)}
    (h : (pairs.map Prod.fst).Nodup) : get? k pairs = some v ↔ (k, v) ∈ pairs := by
  refine ⟨mem_of_get?, fun hmem => ?_⟩
  induction pairs with
  | nil => cases hmem
  | cons p rest ih =>
    rw [List.map_cons, List.nodup_cons] at h
    cases List.mem_cons.mp hmem with
    | inl heq => simp [get?, ← heq]
    | inr hrest =>
      have hk : k ≠ p.1 := by
        intro hk
        exact h.1 (hk ▸ List.mem_map_of_mem hrest)
      simp only [get?, if_neg hk]
      exact ih h.2 hrest

theorem get?_eq_none_iff {k : κ} {pairs : List (κ × ν)} :
    get? k pairs = none ↔ k ∉ pairs.map Prod.fst := by
  induction pairs with
  | nil => simp [get?]
  | cons p rest ih => by_cases hk : k = p.1 <;> simp [get?, hk, ih]

/-- What a key is bound to does not depend on the order of the bindings. -/
theorem get?_perm {pairs others : List (κ × ν)} (h : (pairs.map Prod.fst).Nodup)
    (hperm : pairs.Perm others) (k : κ) : get? k others = get? k pairs := by
  have hothers : (others.map Prod.fst).Nodup := (hperm.map Prod.fst).nodup_iff.mp h
  ext v
  rw [get?_eq_some_iff h, get?_eq_some_iff hothers, hperm.mem_iff]

theorem map_fst_put (k : κ) (v : ν) (pairs : List (κ × ν)) :
    (put k v pairs).map Prod.fst =
      if k ∈ pairs.map Prod.fst then pairs.map Prod.fst else pairs.map Prod.fst ++ [k] := by
  induction pairs with
  | nil => simp [put]
  | cons p rest ih =>
    by_cases hk : k = p.1
    · simp [put, hk]
    · simp only [put, if_neg hk, List.map_cons]
      rw [ih]
      by_cases hrest : k ∈ rest.map Prod.fst
      · rw [if_pos hrest, if_pos (List.mem_cons_of_mem _ hrest)]
      · rw [if_neg hrest, if_neg (by simp [hk, hrest]), List.cons_append]

theorem nodup_put {pairs : List (κ × ν)} (h : (pairs.map Prod.fst).Nodup) (k : κ) (v : ν) :
    ((put k v pairs).map Prod.fst).Nodup := by
  rw [map_fst_put]
  split
  · exact h
  · next hk => exact h.append (List.nodup_singleton k) (List.disjoint_singleton.mpr hk)

theorem nodup_erase {pairs : List (κ × ν)} (h : (pairs.map Prod.fst).Nodup) (k : κ) :
    ((erase k pairs).map Prod.fst).Nodup :=
  h.sublist (List.filter_sublist.map Prod.fst)

theorem mem_put {k : κ} {v : ν} {pairs : List (κ × ν)} {q : κ × ν} (h : q ∈ put k v pairs) :
    q = (k, v) ∨ q ∈ pairs := by
  induction pairs with
  | nil => simpa [put] using h
  | cons p rest ih =>
    by_cases hk : k = p.1
    · simp only [put, if_pos hk, List.mem_cons] at h
      cases h with
      | inl h => exact .inl h
      | inr h => exact .inr (List.mem_cons_of_mem _ h)
    · simp only [put, if_neg hk, List.mem_cons] at h
      cases h with
      | inl h => exact .inr (by simp [h])
      | inr h =>
        cases ih h with
        | inl heq => exact .inl heq
        | inr hmem => exact .inr (List.mem_cons_of_mem _ hmem)

/-- A key that is not bound yet is bound after all others. -/
theorem append_of_get?_none {k : κ} {v : ν} {pairs : List (κ × ν)} (h : get? k pairs = none) :
    pairs ++ [(k, v)] = put k v pairs := by
  induction pairs with
  | nil => rfl
  | cons p rest ih =>
    by_cases hk : k = p.1
    · simp [get?, hk] at h
    · simp only [get?, if_neg hk] at h
      rw [List.cons_append, ih h, put, if_neg hk]

end KeyedLog.Assoc
