import KeyedLog.Proofs.Log.Sound
import KeyedLog.Proofs.Store.Contents

/-!
# How contents track a partition

A replay that has come to an offset of a partition has applied the retained records below it, and
each key whose records lie in that partition shows the last of its records below that offset or a
later one: where a run resumes, what is stored may already be ahead of the ledger.
-/
namespace KeyedLog

/-- What a change leaves under its key. -/
def Change.stored? (c : Change) : Option StoredValue :=
  c.value.map fun value => ⟨value, c.correlation⟩

/-- The last change of a key. -/
def Change.last? (key : Bytes) (changes : List Change) : Option Change :=
  (changes.filter fun c => c.key = key).getLast?

theorem Change.last?_concat (key : Bytes) (changes : List Change) (c : Change) :
    last? key (changes ++ [c]) = if c.key = key then some c else last? key changes := by
  rw [last?, last?, List.filter_append]
  by_cases hkey : c.key = key
  · rw [if_pos hkey, List.filter_cons_of_pos (by simpa using hkey), List.filter_nil,
      List.getLast?_concat]
  · rw [if_neg hkey, List.filter_cons_of_neg (by simpa using hkey), List.filter_nil,
      List.append_nil]

namespace Decoder

/-- The changes that records make. Records that do not decode make none. -/
def changes (d : Decoder) (records : List Record) : List Change :=
  records.filterMap fun r => (d.decode r).toOption

/-- The last change of a key among records. -/
def lastChange? (d : Decoder) (key : Bytes) (records : List Record) : Option Change :=
  Change.last? key (d.changes records)

/-- What the last record of a key leaves under it: nothing, if that is a tombstone or there is no
such record. -/
def lastStored? (d : Decoder) (key : Bytes) (records : List Record) : Option StoredValue :=
  (d.lastChange? key records).bind Change.stored?

variable {d : Decoder} {key : Bytes} {records : List Record} {r : Record} {c : Change}

@[simp] theorem lastStored?_nil : d.lastStored? key [] = none := rfl

theorem changes_cons_of_ok (h : d.decode r = .ok c) :
    d.changes (r :: records) = c :: d.changes records :=
  List.filterMap_cons_some (f := fun r => (d.decode r).toOption) (by rw [h]; rfl)

theorem changes_cons_of_error {e : ReplayError} (h : d.decode r = .error e) :
    d.changes (r :: records) = d.changes records :=
  List.filterMap_cons_none (f := fun r => (d.decode r).toOption) (by rw [h]; rfl)

theorem changes_append_of_ok (h : d.decode r = .ok c) :
    d.changes (records ++ [r]) = d.changes records ++ [c] := by
  rw [changes, List.filterMap_append]
  congr 1
  exact changes_cons_of_ok h

theorem lastStored?_append_of_ok (h : d.decode r = .ok c) :
    d.lastStored? key (records ++ [r]) =
      if c.key = key then c.stored? else d.lastStored? key records := by
  rw [lastStored?, lastChange?, changes_append_of_ok h, Change.last?_concat]
  split <;> rfl

end Decoder

namespace Partition

/-- The retained records below an offset. -/
def below (p : Partition) (offset : Int) : List Record :=
  p.records.take (offset - p.low).toNat

variable {p : Partition} {topic : String} {i : Int} {r : Record}

theorem below_low (p : Partition) : p.below p.low = [] := by
  rw [below, Int.sub_self]
  rfl

theorem below_high (p : Partition) : p.below p.high = p.records := by
  rw [below, high]
  exact List.take_of_length_le (by omega)

theorem below_append {offset : Int} (h : offset ≤ p.high) :
    (p.append r).below offset = p.below offset := by
  rw [high] at h
  rw [below, below, low_append, records_append]
  exact List.take_append_of_le_length (by omega)

/-- One more record is below the next offset. -/
theorem Sound.below_succ (h : p.Sound topic i) (hr : r ∈ p.records) :
    p.below (r.offset + 1) = p.below r.offset ++ [r] := by
  have hget := h.getElem?_of_mem hr
  obtain ⟨-, hlow, -⟩ := h.place hr
  have hindex : (r.offset + 1 - p.low).toNat = (r.offset - p.low).toNat + 1 := by omega
  rw [below, below, hindex, List.take_add_one, hget]
  rfl

/-- The retained records below an offset have all been applied. -/
def Done (d : Decoder) (applied : List (Position × Change)) (p : Partition) (offset : Int) :
    Prop :=
  ∀ r ∈ p.records, r.offset < offset → ∃ c, d.decode r = .ok c ∧ (r.place, c) ∈ applied

namespace Done

variable {d : Decoder} {applied : List (Position × Change)} {offset : Int}

theorem at_low (h : p.Sound topic i) (hle : offset ≤ p.low) : Done d applied p offset := by
  intro r hr hlt
  have := h.place hr
  omega

theorem mono (h : Done d applied p offset) {lower : Int} (hle : lower ≤ offset) :
    Done d applied p lower :=
  fun r hr hlt => h r hr (by omega)

theorem append (h : Done d applied p offset) (others : List (Position × Change)) :
    Done d (applied ++ others) p offset := by
  intro r hr hlt
  obtain ⟨c, hc, hmem⟩ := h r hr hlt
  exact ⟨c, hc, List.mem_append_left _ hmem⟩

/-- What is appended has a higher offset, and what is dropped is not retained. -/
theorem changes {q : Partition} (h : Done d applied p offset) (hq : Changes topic i p q)
    (hle : offset ≤ p.high) : Done d applied q offset := by
  intro r hr hlt
  rcases hq.mem hr with hr | hnew
  · exact h r hr hlt
  · omega

/-- Applying the record at an offset takes a replay one further. -/
theorem succ (h : Done d applied p offset) (hsound : p.Sound topic i) {c : Change}
    (hc : ∀ r ∈ p.records, r.offset = offset → d.decode r = .ok c) :
    Done d (applied ++ [(⟨topic, i, offset⟩, c)]) p (offset + 1) := by
  intro r hr hlt
  by_cases heq : r.offset = offset
  · refine ⟨c, hc r hr heq, ?_⟩
    rw [(hsound.place hr).1, heq]
    exact List.mem_append_right _ List.mem_cons_self
  · exact h.append _ r hr (by omega)

end Done

/-- Each key that is at home in a partition shows its last record below an offset or a later
one. -/
def Shows (d : Decoder) (home : Bytes → Option Int) (get : Bytes → Option StoredValue)
    (i : Int) (p : Partition) (offset : Int) : Prop :=
  ∀ key, home key = some i →
    ∃ reach, offset ≤ reach ∧ reach ≤ p.high ∧ get key = d.lastStored? key (p.below reach)

namespace Shows

variable {d : Decoder} {home : Bytes → Option Int} {get get' : Bytes → Option StoredValue}
  {offset : Int}

theorem of_homeless (h : ∀ key, home key = none) : Shows d home get i p offset := by
  intro key hkey
  rw [h key] at hkey
  cases hkey

theorem of_empty (h : ∀ key, get key = none) : Shows d home get i p p.low := by
  intro key _
  refine ⟨p.low, Int.le_refl _, p.low_le_high, ?_⟩
  rw [below_low, h key, Decoder.lastStored?_nil]

theorem mono (h : Shows d home get i p offset) {lower : Int} (hle : lower ≤ offset) :
    Shows d home get i p lower := by
  intro key hkey
  obtain ⟨reach, hreach, hhigh, hget⟩ := h key hkey
  exact ⟨reach, by omega, hhigh, hget⟩

theorem congr (h : Shows d home get i p offset)
    (hget : ∀ key, home key = some i → get' key = get key) : Shows d home get' i p offset := by
  intro key hkey
  rw [hget key hkey]
  exact h key hkey

theorem grows {q : Partition} (h : Shows d home get i p offset) (hq : Grows topic i p q) :
    Shows d home get i q offset := by
  cases hq with
  | same => exact h
  | append r hplace =>
    intro key hkey
    obtain ⟨reach, hreach, hhigh, hget⟩ := h key hkey
    refine ⟨reach, hreach, ?_, ?_⟩
    · rw [high_append]
      omega
    · rw [below_append hhigh]
      exact hget

/-- Applying the record at an offset takes what is shown one further. A key that was shown ahead
of it goes back to it. -/
theorem succ (h : Shows d home get i p offset) (hsound : p.Sound topic i) {c : Change}
    (hr : r ∈ p.records) (hoffset : r.offset = offset) (hc : d.decode r = .ok c)
    (hself : get' c.key = c.stored?) (hother : ∀ key, key ≠ c.key → get' key = get key) :
    Shows d home get' i p (offset + 1) := by
  subst hoffset
  obtain ⟨-, -, hlt⟩ := hsound.place hr
  intro key hkey
  by_cases heq : c.key = key
  · refine ⟨r.offset + 1, Int.le_refl _, by omega, ?_⟩
    rw [hsound.below_succ hr, Decoder.lastStored?_append_of_ok hc, if_pos heq, ← heq, hself]
  · rw [hother key (Ne.symm heq)]
    obtain ⟨reach, hreach, hhigh, hget⟩ := h key hkey
    by_cases hahead : r.offset + 1 ≤ reach
    · exact ⟨reach, hahead, hhigh, hget⟩
    · have hat : reach = r.offset := by omega
      refine ⟨r.offset + 1, Int.le_refl _, by omega, ?_⟩
      rw [hsound.below_succ hr, Decoder.lastStored?_append_of_ok hc, if_neg heq, hget, hat]

/-- At the end of a partition each key at home there shows its last record. -/
theorem at_high (h : Shows d home get i p p.high) {key : Bytes} (hkey : home key = some i) :
    get key = d.lastStored? key p.records := by
  obtain ⟨reach, hreach, hhigh, hget⟩ := h key hkey
  have hat : reach = p.high := by omega
  rw [hget, hat, below_high]

end Shows

/-- A replay has come to an offset of a partition, or beyond it before. -/
structure Tracked (d : Decoder) (home : Bytes → Option Int) (get : Bytes → Option StoredValue)
    (applied : List (Position × Change)) (i : Int) (p : Partition) (offset : Int) : Prop where
  nonneg : 0 ≤ offset
  le_high : offset ≤ p.high
  done : Done d applied p offset
  shows : Shows d home get i p offset

namespace Tracked

variable {d : Decoder} {home : Bytes → Option Int} {get get' : Bytes → Option StoredValue}
  {applied : List (Position × Change)} {offset : Int}

theorem at_low (hsound : p.Sound topic i) (hshows : Shows d home get i p p.low) :
    Tracked d home get applied i p p.low :=
  ⟨hsound.low, p.low_le_high, Done.at_low hsound (Int.le_refl _), hshows⟩

theorem mono (h : Tracked d home get applied i p offset) {lower : Int} (hzero : 0 ≤ lower)
    (hle : lower ≤ offset) : Tracked d home get applied i p lower :=
  ⟨hzero, Int.le_trans hle h.le_high, h.done.mono hle, h.shows.mono hle⟩

/-- What others do to the log does not set a replay back. Keys are at home only where nothing is
dropped. -/
theorem changes {q : Partition} (h : Tracked d home get applied i p offset)
    (hq : Changes topic i p q) (hhome : Grows topic i p q ∨ ∀ key, home key = none) :
    Tracked d home get applied i q offset where
  nonneg := h.nonneg
  le_high := Int.le_trans h.le_high hq.high_le
  done := h.done.changes hq h.le_high
  shows := by
    cases hhome with
    | inl hgrows => exact h.shows.grows hgrows
    | inr hnone => exact .of_homeless hnone

/-- What is applied to other keys leaves a partition as far as it was. -/
theorem frame (h : Tracked d home get applied i p offset) (others : List (Position × Change))
    (hget : ∀ key, home key = some i → get' key = get key) :
    Tracked d home get' (applied ++ others) i p offset :=
  ⟨h.nonneg, h.le_high, h.done.append others, h.shows.congr hget⟩

/-- Applying the record at an offset takes a replay one further. -/
theorem succ (h : Tracked d home get applied i p offset) (hsound : p.Sound topic i)
    (hlt : offset < p.high) {c : Change}
    (hc : ∀ r ∈ p.records, r.offset = offset → d.decode r = .ok c)
    (hthere : (∀ key, home key = none) ∨ ∃ r ∈ p.records, r.offset = offset)
    (hself : get' c.key = c.stored?) (hother : ∀ key, key ≠ c.key → get' key = get key) :
    Tracked d home get' (applied ++ [(⟨topic, i, offset⟩, c)]) i p (offset + 1) where
  nonneg := by
    have := h.nonneg
    omega
  le_high := by omega
  done := h.done.succ hsound hc
  shows := by
    cases hthere with
    | inl hnone => exact .of_homeless hnone
    | inr hr =>
      obtain ⟨r, hr, hoffset⟩ := hr
      exact h.shows.succ hsound hr hoffset (hc r hr hoffset) hself hother

end Tracked

end Partition

end KeyedLog
