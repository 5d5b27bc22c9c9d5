import KeyedLog.Proofs.Store.Interrupted

/-!
# Stores that calls were cut off on

A store on a tree goes on working where calls on it were cut off before. There are contents in it,
and each operation does to the store what it does to the contents, as long as no directory of the
tree is full.
-/
namespace KeyedLog.StateStore

/-- There are contents in a store. Calls may have been cut off on a tree before. -/
def Carries (s : StateStore) (files : FileTree) (m : Contents) : Prop :=
  match s.backing with
  | .dict d => d.Holds m
  | .disk root => Disk.Lies False files root m ∧ m.InRange
  | .database d => d.Holds m

/-- If a store is kept in a tree, no directory there is full. -/
def Spacious (s : StateStore) (files : FileTree) : Prop :=
  ∀ root, s.root? = some root → Disk.Spacious files root

/-- An operation came out well, and there are given contents in the store behind it. -/
structure GoesOn (s : StateStore) (m : Contents)
    (outcome : Except StateError Unit × StateStore × FileTree) : Prop where
  ok : outcome.1 = .ok ()
  carries : outcome.2.1.Carries outcome.2.2 m

variable {s : StateStore} {files : FileTree} {m : Contents}

theorem Holds.carries (h : s.Holds files m) : s.Carries files m := by
  obtain ⟨backing, latch⟩ := s
  cases backing with
  | dict d => exact h
  | disk root => exact ⟨h.lies.untidy, h.fits.ranges⟩
  | database d => exact h

theorem Leaves.goesOn {outcome : Except StateError Unit × StateStore × FileTree}
    (h : s.Leaves m outcome) : s.GoesOn m outcome :=
  ⟨h.ok, h.holds.carries⟩

/-- So do all trees that calls have left below a root. -/
theorem carries_of_reached {base : String} (h : Disk.Reached base files) :
    ∃ m, (onDisk base).Carries files m := by
  obtain ⟨m, hlies, hm⟩ := h.lies
  exact ⟨m, hlies, hm⟩

/-- The latch is of no account. -/
theorem Carries.of_backing {s' : StateStore} (h : s.Carries files m)
    (hbacking : s'.backing = s.backing) : s'.Carries files m := by
  rw [Carries, hbacking]
  exact h

namespace Carries

theorem put (h : s.Carries files m) (hspace : s.Spacious files) (key value : Bytes)
    (correlation : String) :
    s.GoesOn (m.put key ⟨value, correlation⟩) (s.put files key value correlation) := by
  obtain ⟨backing, latch⟩ := s
  cases backing with
  | dict d => exact (Holds.put (s := ⟨.dict d, latch⟩) h key value correlation
      (by rintro ⟨⟩)).goesOn
  | disk root =>
    obtain ⟨hlies, hm⟩ := h
    obtain ⟨t, hmade, hpasses, ht⟩ :=
      hlies.passes (hspace root rfl) (.put key value correlation)
    have hput : files.carryOut (Disk.planPut files root key value correlation) = (.ok (), t) :=
      hpasses.carryOut hmade
    simp only [StateStore.put, hput]
    exact ⟨rfl, ht, hm⟩
  | database d =>
    exact (Holds.put (s := ⟨.database d, latch⟩) h key value correlation
      (by rintro ⟨⟩)).goesOn

theorem remove (h : s.Carries files m) (hspace : s.Spacious files) (key : Bytes) :
    s.GoesOn (m.remove key) (s.remove files key) := by
  obtain ⟨backing, latch⟩ := s
  cases backing with
  | dict d => exact (Holds.remove (s := ⟨.dict d, latch⟩) h key).goesOn
  | disk root =>
    obtain ⟨hlies, hm⟩ := h
    obtain ⟨t, hmade, hpasses, ht⟩ := hlies.passes (hspace root rfl) (.remove key)
    have hremove : files.carryOut (Disk.planRemove files root key) = (.ok (), t) :=
      hpasses.carryOut hmade
    simp only [StateStore.remove, hremove]
    exact ⟨rfl, ht, hm⟩
  | database d => exact (Holds.remove (s := ⟨.database d, latch⟩) h key).goesOn

theorem advance (h : s.Carries files m) (hspace : s.Spacious files) (p : Position)
    (hrange : s.root?.isSome → (StoreCall.advance p).InRange) :
    s.GoesOn (m.advance p) (s.advance files p) := by
  obtain ⟨backing, latch⟩ := s
  cases backing with
  | dict d => exact (Holds.advance (s := ⟨.dict d, latch⟩) h p (by rintro ⟨⟩)).goesOn
  | disk root =>
    obtain ⟨hlies, hm⟩ := h
    obtain ⟨t, hmade, hpasses, ht⟩ := hlies.passes (hspace root rfl) (.advance p)
    have hadvance : files.carryOut (Disk.planAdvance files root p) = (.ok (), t) :=
      hpasses.carryOut hmade
    simp only [StateStore.advance, hadvance]
    exact ⟨rfl, ht, hm.after (hrange rfl)⟩
  | database d => exact (Holds.advance (s := ⟨.database d, latch⟩) h p (by rintro ⟨⟩)).goesOn

theorem ledger (h : s.Carries files m) : ∃ rows, s.ledger files = .ok rows ∧ m.Lists rows := by
  obtain ⟨backing, latch⟩ := s
  cases backing with
  | dict d => exact Holds.ledger (s := ⟨.dict d, latch⟩) h
  | disk root => exact h.1.ledger h.2
  | database d => exact Holds.ledger (s := ⟨.database d, latch⟩) h

end Carries

end KeyedLog.StateStore
