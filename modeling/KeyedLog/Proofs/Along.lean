import Mathlib.Data.List.Induction

/-!
# Lists that grow at their end

In a list to which more is added, what comes before a member does not change. So a property of the
members together with what came before them goes on from one to the next.
-/
namespace KeyedLog

variable {α : Type} {P : List α → α → Prop} {xs : List α} {x : α}

/-- Something in a list with one more at its end is that one, or it was there before. -/
theorem append_cons_eq_concat_iff {before after : List α} {y : α} :
    before ++ y :: after = xs ++ [x] ↔ after = [] ∧ before = xs ∧ y = x ∨
      ∃ rest, after = rest ++ [x] ∧ before ++ y :: rest = xs := by
  cases after using List.reverseRecOn with
  | nil =>
    constructor
    · intro h
      obtain ⟨hxs, hlast⟩ := List.append_inj' h rfl
      exact .inl ⟨rfl, hxs, (List.cons.inj hlast).1⟩
    · rintro (⟨-, rfl, rfl⟩ | ⟨rest, hrest, -⟩)
      · rfl
      · simp at hrest
  | append_singleton after last =>
    constructor
    · intro h
      rw [← List.cons_append, ← List.append_assoc] at h
      obtain ⟨hxs, hlast⟩ := List.append_inj' h rfl
      exact .inr ⟨after, by rw [hlast], hxs⟩
    · rintro (⟨hnil, -, -⟩ | ⟨rest, hrest, rfl⟩)
      · simp at hnil
      · rw [hrest]
        simp

/-- Each member of a list has a property together with what came before it. -/
def Along (P : List α → α → Prop) (xs : List α) : Prop :=
  ∀ before x after, xs = before ++ x :: after → P before x

theorem along_nil : Along P [] := by
  intro before x after h
  simp at h

theorem Along.concat (h : Along P xs) (hx : P xs x) : Along P (xs ++ [x]) := by
  intro before y after heq
  rcases append_cons_eq_concat_iff.mp heq.symm with ⟨-, rfl, rfl⟩ | ⟨rest, -, hxs⟩
  · exact hx
  · exact h before y rest hxs.symm

end KeyedLog
