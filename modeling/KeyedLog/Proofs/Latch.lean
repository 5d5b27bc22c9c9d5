import KeyedLog.Latch
import KeyedLog.Proofs.Along

/-!
# Latched for good

However often a latch is given a watermark or asked about a ledger, it latches at the first ledger
that reaches the watermark of its moment, and it never comes loose. What it answers and what it
shows of the progress agree.
-/
namespace KeyedLog

/-- The first row of a ledger for the partition of a target. -/
def Position.IsFirst (ledger : List Position) (target row : Position) : Prop :=
  ∃ before after, ledger = before ++ row :: after ∧
    (row.topic = target.topic ∧ row.partition = target.partition) ∧
    ∀ other ∈ before, ¬(other.topic = target.topic ∧ other.partition = target.partition)

theorem Position.offsetOf?_eq_some_iff_isFirst {ledger : List Position} {target : Position}
    {offset : Int} : offsetOf? ledger target.topic target.partition = some offset ↔
      ∃ row, IsFirst ledger target row ∧ row.offset = offset := by
  simp only [offsetOf?, Option.map_eq_some_iff, List.find?_eq_some_iff_append, IsFirst,
    Bool.and_eq_true, beq_iff_eq, Bool.not_eq_true', Bool.and_eq_false_iff, beq_eq_false_iff_ne,
    not_and_or]
  constructor
  · rintro ⟨row, ⟨hsame, before, after, rfl, hbefore⟩, hoffset⟩
    exact ⟨row, ⟨before, after, rfl, hsame, hbefore⟩, hoffset⟩
  · rintro ⟨row, ⟨before, after, rfl, hsame, hbefore⟩, hoffset⟩
    exact ⟨row, ⟨hsame, before, after, rfl, hbefore⟩, hoffset⟩

namespace Latch

/-- There are targets, and a ledger has come to each of them. -/
def Reaches (ledger targets : List Position) : Prop :=
  targets ≠ [] ∧ ∀ target ∈ targets, ∃ row, Position.IsFirst ledger target row ∧
    target.offset ≤ row.offset

variable {l : Latch} {ledger targets : List Position}

theorem reached_eq_true_iff {target : Position} : reached ledger target = true ↔
    ∃ row, Position.IsFirst ledger target row ∧ target.offset ≤ row.offset := by
  rw [reached]
  cases hrow : Position.offsetOf? ledger target.topic target.partition with
  | none =>
    have hno : ¬∃ row, Position.IsFirst ledger target row ∧ target.offset ≤ row.offset := by
      rintro ⟨row, hfirst, -⟩
      rw [Position.offsetOf?_eq_some_iff_isFirst.mpr ⟨row, hfirst, rfl⟩] at hrow
      cases hrow
    simp [hno]
  | some offset =>
    rw [decide_eq_true_eq]
    constructor
    · intro hle
      obtain ⟨row, hfirst, rfl⟩ := Position.offsetOf?_eq_some_iff_isFirst.mp hrow
      exact ⟨row, hfirst, hle⟩
    · rintro ⟨row, hfirst, hle⟩
      rw [Position.offsetOf?_eq_some_iff_isFirst.mpr ⟨row, hfirst, rfl⟩, Option.some.injEq] at hrow
      rwa [← hrow]

theorem caughtUp_eq_true_iff : caughtUp targets ledger = true ↔ Reaches ledger targets := by
  simp only [caughtUp, Reaches, Bool.and_eq_true, Bool.not_eq_true', List.isEmpty_eq_false_iff,
    List.all_eq_true, reached_eq_true_iff]

/-- No row of the watermark is behind in what is shown of the progress. -/
def Complete (progress : List Progress) : Prop :=
  ∀ p ∈ progress, ∃ consumed, p.consumed = some consumed ∧ p.target ≤ consumed

theorem complete_progress_iff : Complete (l.progress ledger) ↔
    ∀ target ∈ l.watermark, reached ledger target = true := by
  simp only [Complete, progress, List.forall_mem_map]
  apply forall₂_congr
  intro target _
  rw [reached]
  cases Position.offsetOf? ledger target.topic target.partition with
  | none => simp
  | some offset => simp

/-! ## One call -/

inductive Call where
  | setWatermark (rows : List Position)
  | evaluate (ledger : List Position)
  deriving DecidableEq, Repr

def after (l : Latch) : Call → Latch
  | .setWatermark rows => l.setWatermark rows
  | .evaluate ledger => (l.evaluate ledger).2

/-- The answer tells whether the latch is set now. -/
theorem latched_evaluate : (l.evaluate ledger).2.latched = (l.evaluate ledger).1 := by
  rw [evaluate]
  split
  · assumption
  · next hnot =>
    split
    · rfl
    · exact Bool.eq_false_iff.mpr hnot

theorem evaluate_eq_true_iff :
    (l.evaluate ledger).1 = true ↔ l.latched = true ∨ Reaches ledger l.watermark := by
  rw [evaluate, ← caughtUp_eq_true_iff]
  split
  · next h => simp [h]
  · next h =>
    split
    · next hreach => simp [hreach]
    · next hreach => simp [h, hreach]

theorem watermark?_evaluate : (l.evaluate ledger).2.watermark? = l.watermark? := by
  rw [evaluate]
  split
  · rfl
  · split <;> rfl

/-- One call sets a latch only by a ledger that reaches the watermark. -/
theorem latched_after_iff {c : Call} : (l.after c).latched = true ↔
    l.latched = true ∨ ∃ ledger, c = .evaluate ledger ∧ Reaches ledger l.watermark := by
  cases c with
  | setWatermark rows => simp [after, setWatermark]
  | evaluate ledger => simp [after, latched_evaluate, evaluate_eq_true_iff]

/-! ## Many calls -/

def run (l : Latch) (calls : List Call) : Latch := calls.foldl after l

theorem run_concat (l : Latch) (calls : List Call) (c : Call) :
    l.run (calls ++ [c]) = (l.run calls).after c := by
  rw [run, List.foldl_append]
  rfl

theorem run_append (l : Latch) (calls more : List Call) :
    l.run (calls ++ more) = (l.run calls).run more := List.foldl_append

def Call.rows? : Call → Option (List Position)
  | .setWatermark rows => some rows
  | .evaluate _ => none

/-- The watermark that was set last. -/
def lastSet? (calls : List Call) : Option (List Position) := (calls.filterMap Call.rows?).getLast?

theorem lastSet?_concat (calls : List Call) (c : Call) :
    lastSet? (calls ++ [c]) = c.rows?.or (lastSet? calls) := by
  cases c <;> simp [lastSet?, Call.rows?]

theorem watermark?_run (calls : List Call) : (run {} calls).watermark? = lastSet? calls := by
  induction calls using List.reverseRecOn with
  | nil => rfl
  | append_singleton calls c ih =>
    rw [run_concat, lastSet?_concat]
    cases c with
    | setWatermark rows => rfl
    | evaluate ledger => exact watermark?_evaluate.trans ih

/-- A latch that is set stays set. -/
theorem latched_run (h : l.latched = true) (calls : List Call) : (l.run calls).latched = true := by
  induction calls using List.reverseRecOn with
  | nil => exact h
  | append_singleton calls c ih =>
    rw [run_concat, latched_after_iff]
    exact .inl ih

/-- A ledger was asked about, and it reached the watermark that had been set last. -/
def CaughtUpIn (calls : List Call) : Prop :=
  ∃ before ledger after targets, calls = before ++ .evaluate ledger :: after ∧
    lastSet? before = some targets ∧ Reaches ledger targets

theorem caughtUpIn_concat_iff {calls : List Call} {c : Call} : CaughtUpIn (calls ++ [c]) ↔
    CaughtUpIn calls ∨ ∃ ledger targets, c = .evaluate ledger ∧ lastSet? calls = some targets ∧
      Reaches ledger targets := by
  constructor
  · rintro ⟨before, ledger, after, targets, hcalls, hset, hreach⟩
    rcases append_cons_eq_concat_iff.mp hcalls.symm with ⟨-, rfl, rfl⟩ | ⟨rest, -, rfl⟩
    · exact .inr ⟨ledger, targets, rfl, hset, hreach⟩
    · exact .inl ⟨before, ledger, rest, targets, rfl, hset, hreach⟩
  · rintro (⟨before, ledger, after, targets, rfl, hset, hreach⟩ |
      ⟨ledger, targets, rfl, hset, hreach⟩)
    · exact ⟨before, ledger, after ++ [c], targets, by simp, hset, hreach⟩
    · exact ⟨calls, ledger, [], targets, rfl, hset, hreach⟩

theorem reaches_watermark_iff (calls : List Call) : Reaches ledger (run {} calls).watermark ↔
    ∃ targets, lastSet? calls = some targets ∧ Reaches ledger targets := by
  rw [watermark, watermark?_run]
  cases lastSet? calls with
  | none => simp [Reaches]
  | some targets => simp

theorem latched_run_iff (calls : List Call) :
    (run {} calls).latched = true ↔ CaughtUpIn calls := by
  induction calls using List.reverseRecOn with
  | nil =>
    have hnone : ¬CaughtUpIn [] := by
      rintro ⟨before, ledger, after, targets, hcalls, -⟩
      simp at hcalls
    simp [run, hnone]
  | append_singleton calls c ih =>
    rw [run_concat, latched_after_iff, ih, caughtUpIn_concat_iff]
    simp only [reaches_watermark_iff, exists_and_left]

/-- After any calls a latch is set exactly if one of them asked about a ledger that reached the
watermark of that moment, as the next answer will tell, whatever is called after. Before it is set,
and with a watermark, the answer is also that nothing of the progress is left to be made. -/
theorem latches_once_caught_up (calls : List Call) :
    ((run {} calls).latched = true ↔ CaughtUpIn calls) ∧
    (∀ ledger, ((run {} calls).evaluate ledger).1 = true ↔
      (run {} (calls ++ [.evaluate ledger])).latched = true) ∧
    ((run {} calls).latched = true → ∀ more, (run {} (calls ++ more)).latched = true) ∧
    ((run {} calls).latched = false → (run {} calls).watermark ≠ [] → ∀ ledger,
      ((run {} calls).evaluate ledger).1 = true ↔ Complete ((run {} calls).progress ledger)) := by
  refine ⟨latched_run_iff calls, fun ledger => ?_, fun hset more => ?_,
    fun hloose hsome ledger => ?_⟩
  · rw [run_concat, after, latched_evaluate]
  · rw [run_append]
    exact latched_run hset more
  · have hanswer : ((run {} calls).evaluate ledger).1 = true ↔
        Reaches ledger (run {} calls).watermark := by
      rw [evaluate_eq_true_iff, hloose]
      simp
    rw [hanswer, Reaches, and_iff_right hsome, complete_progress_iff]
    simp only [reached_eq_true_iff]

/-- Two partitions of a topic are to be reached. -/
def twoTargets : List Position := [⟨"kv", 0, 5⟩, ⟨"kv", 1, 2⟩]

/-- A row that comes second for its partition does not count, nor does one of another topic. A
latch that is set is not loosened by a higher watermark and an empty ledger. -/
theorem latches_once_caught_up_reset :
    ((run {} [.setWatermark twoTargets,
        .evaluate [⟨"kv", 0, 3⟩, ⟨"kv", 0, 9⟩, ⟨"kv", 1, 2⟩, ⟨"other", 0, 9⟩]]).latched = false ∧
      ¬Complete ((run {} [.setWatermark twoTargets]).progress [⟨"kv", 0, 3⟩, ⟨"kv", 0, 9⟩])) ∧
    (run {} [.setWatermark twoTargets, .evaluate [⟨"kv", 1, 2⟩, ⟨"kv", 0, 9⟩, ⟨"kv", 0, 3⟩],
      .setWatermark [⟨"kv", 0, 100⟩], .evaluate []]).latched = true := by
  obtain ⟨-, -, -, hprogress⟩ := latches_once_caught_up [.setWatermark twoTargets]
  obtain ⟨-, -, hstays, -⟩ := latches_once_caught_up
    [.setWatermark twoTargets, .evaluate [⟨"kv", 1, 2⟩, ⟨"kv", 0, 9⟩, ⟨"kv", 0, 3⟩]]
  refine ⟨⟨by decide, ?_⟩, ?_⟩
  · rw [← hprogress (by decide) (by decide)]
    decide
  · exact hstays (by decide) [.setWatermark [⟨"kv", 0, 100⟩], .evaluate []]

end Latch

end KeyedLog
