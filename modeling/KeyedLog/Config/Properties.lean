/-!
# Properties

Named texts in the order of their names, each name once.
-/
namespace KeyedLog

structure Properties where
  entries : List (String × String)
  ordered : entries.Pairwise fun a b => a.1 < b.1
  deriving DecidableEq, Repr

namespace Properties

def empty : Properties := ⟨[], .nil⟩

def get? (p : Properties) (name : String) : Option String := p.entries.lookup name

/-- Put a pair in its place, where it replaces one of the same name. -/
def insertOrdered (name value : String) : List (String × String) → List (String × String)
  | [] => [(name, value)]
  | (n, v) :: rest =>
    if name = n then (name, value) :: rest
    else if name < n then (name, value) :: (n, v) :: rest
    else (n, v) :: insertOrdered name value rest

theorem mem_insertOrdered {name value : String} {e : String × String}
    {es : List (String × String)} (h : e ∈ insertOrdered name value es) :
    e = (name, value) ∨ e ∈ es := by
  induction es with
  | nil => simpa [insertOrdered] using h
  | cons d rest ih =>
    simp only [insertOrdered] at h
    split at h
    · simp only [List.mem_cons] at h ⊢
      exact h.imp id Or.inr
    · split at h
      · simpa using h
      · simp only [List.mem_cons] at h ⊢
        exact h.elim (fun h => .inr (.inl h)) fun h => (ih h).imp id Or.inr

theorem ordered_insertOrdered (name value : String) {es : List (String × String)}
    (h : es.Pairwise fun a b => a.1 < b.1) :
    (insertOrdered name value es).Pairwise fun a b => a.1 < b.1 := by
  induction es with
  | nil => simp [insertOrdered]
  | cons d rest ih =>
    obtain ⟨first, later⟩ := List.pairwise_cons.1 h
    simp only [insertOrdered]
    split
    next eq => exact List.pairwise_cons.2 ⟨fun e he => eq ▸ first e he, later⟩
    next ne =>
      split
      next lt =>
        refine List.pairwise_cons.2 ⟨fun e he => ?_, h⟩
        rcases List.mem_cons.1 he with rfl | he
        · exact lt
        · exact String.lt_trans lt (first e he)
      next not_lt =>
        have gt : d.1 < name := by
          have := String.not_lt.1 not_lt
          grind
        refine List.pairwise_cons.2 ⟨fun e he => ?_, ih later⟩
        rcases mem_insertOrdered he with rfl | he
        · exact gt
        · exact first e he

/-- Set the text of a name. -/
def insert (p : Properties) (name value : String) : Properties :=
  ⟨insertOrdered name value p.entries, ordered_insertOrdered name value p.ordered⟩

/-- The properties that pairs set, one after another. -/
def ofList (pairs : List (String × String)) : Properties :=
  pairs.foldl (fun p (name, value) => p.insert name value) empty

end Properties

end KeyedLog
