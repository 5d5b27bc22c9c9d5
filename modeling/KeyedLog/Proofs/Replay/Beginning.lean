import KeyedLog.Proofs.Log.Delivery
import KeyedLog.Proofs.Replay.Ledger

/-!
# Where a run begins to consume

A partition that had no row begins at its low watermark, for it was seeded there, and the seed
passes for a row that was found. So the others are resumed at the rows that were found, unless a row was
found for a partition that the topic does not have: then all begin at their low watermarks.
-/
namespace KeyedLog.Replay.History

variable {s : Settings} {found m : Contents} {partitions : List Int} {h : History}

theorem request_assigning_of_ok {framing : Framing} {starts : List PartitionStart}
    (hs : h.stage = .assigning framing starts) {c : Consumer}
    (hassign : h.world.consumer.assign h.log s.topic starts = (.ok (), c)) :
    h.request s = { h with
      stage := .checkingStop framing
      world := { h.world with consumer := c } } := by
  rw [log] at hassign
  simp only [request, step, hs, Stage.ask?, Surroundings.answer, hassign]
  rfl

/-- Where the cursors stand with which a run begins to consume, given the ledger it has found. -/
structure Begins (topic : String) (listed : List Position) (log : Log) (cursors : List Cursor) :
    Prop where
  partitions : cursors.map Cursor.partition = log.partitionNumbers topic
  astray : (∃ i ∈ Position.partitionsOf listed topic, i ∉ log.partitionNumbers topic) →
    ∀ c ∈ cursors, c.next = (log.slot topic c.partition).low
  within : (∀ i ∈ Position.partitionsOf listed topic, i ∈ log.partitionNumbers topic) →
    ∀ c ∈ cursors, c.next =
      ((Position.offsetOf? listed topic c.partition).elim (log.slot topic c.partition).low
        (max · (log.slot topic c.partition).low))

/-- The consumer takes over all partitions. -/
theorem Keeps.assigns (hk : Keeps s found partitions h m) {framing : Framing}
    {starts : List PartitionStart} (hs : h.stage = .assigning framing starts) :
    h.request s = { h with
      stage := .checkingStop framing
      world := { h.world with consumer := { h.world.consumer with
        topic := some s.topic
        cursors := starts.map (Consumer.starting h.log s.topic)
        turn := 0 } } } := by
  have hcreated : h.stage ≠ .creatingTopic := by rw [hs]; nofun
  have hpace := hk.pace
  rw [hs] at hpace
  obtain ⟨-, -, rows, hlists, hstarts⟩ := hpace
  have hopen : h.world.consumer.closed = false := hk.opened (by rw [hs]; nofun)
  have hthere : ∀ start ∈ starts, start.partition ∈ h.log.partitionNumbers s.topic := by
    intro start hstart
    have hpartitions : starts.map PartitionStart.partition = partitions := by
      rw [hstarts]
      exact Start.map_partition_resolve (hk.nodup hcreated) hlists.distinct
    rw [hk.numbers (hk.exist.resolve_left hcreated), ← hpartitions]
    exact List.mem_map_of_mem hstart
  obtain ⟨c, hassign⟩ := Consumer.assign_ok_iff.mpr ⟨hopen, hthere⟩
  obtain ⟨-, rfl⟩ := Consumer.assign_eq_ok hassign
  exact request_assigning_of_ok hs hassign

theorem Keeps.begins (hk : Keeps s found partitions h m) {framing : Framing}
    {starts : List PartitionStart} (hs : h.stage = .assigning framing starts)
    {listed : List Position} (hlisted : found.Lists listed) :
    Begins s.topic listed h.log (starts.map (Consumer.starting h.log s.topic)) := by
  have hcreated : h.stage ≠ .creatingTopic := by rw [hs]; nofun
  have hnodup := hk.nodup hcreated
  have hentering : h.stage.entering? = none := by rw [hs]; rfl
  have hnumbers := hk.numbers (hk.exist.resolve_left hcreated)
  have hpace := hk.pace
  rw [hs] at hpace
  obtain ⟨happlied, hcaptured, rows, hlists, hstarts⟩ := hpace
  have hfound : ∀ i,
      i ∈ Position.partitionsOf listed s.topic ↔ (found.offset? s.topic i).isSome := by
    intro i
    rw [← hlisted.offsetOf?, Position.isSome_offsetOf?]
  refine ⟨?_, ?_, ?_⟩
  · rw [hnumbers, hstarts, List.map_map]
    exact Start.map_partition_resolve hnodup hlists.distinct
  · rintro ⟨i, hi, hother⟩ c hc
    rw [hnumbers] at hother
    have hmismatch : ¬ Start.Matches s.topic partitions rows := by
      intro hmatches
      refine hother ((hmatches i).mpr ?_)
      rw [← Position.isSome_offsetOf?, hlists.offsetOf?, hk.others s.topic i (.inr hother)]
      exact (hfound i).mp hi
    rw [hstarts, Start.resolve_of_not_matches hnodup hlists.distinct hmismatch, List.map_map] at hc
    obtain ⟨j, -, rfl⟩ := List.mem_map.mp hc
    rfl
  · intro hwithin c hc
    rw [hnumbers] at hwithin
    have hrows := hk.row_iff hentering hcaptured fun i hi => hwithin i ((hfound i).mpr hi)
    rw [hstarts, Start.resolve_eq hlists hnodup hrows, List.map_map] at hc
    obtain ⟨i, hi, rfl⟩ := List.mem_map.mp hc
    have hrow := hk.rows i hi (by rw [hentering]; nofun)
    rw [row?, happlied] at hrow
    simp only [Function.comp_apply, Consumer.starting, hlisted.offsetOf?]
    cases hold : found.offset? s.topic i with
    | some offset =>
      rw [hold] at hrow
      simp only [show m.offset? s.topic i = some offset from hrow, Option.getD_some,
        Option.elim_some]
    | none =>
      -- the seed is not above the low watermark, which may have moved since
      rw [hold] at hrow
      obtain ⟨low, hlow⟩ := Option.isSome_iff_exists.mp ((hrows i).mp hi)
      have hmark : lowMark? h.captured i = some low := hrow.symm.trans hlow
      obtain ⟨w, hw, rfl⟩ := exists_mem_of_lowMark? hmark
      rw [hlow, Option.getD_some, Option.elim_none]
      exact max_eq_right (hk.marks i w hw).2

namespace Begins

variable {topic : String} {listed : List Position} {log : Log} {cursors : List Cursor}

/-- Where the partitions that had rows are those of the topic, each begins at its row. -/
theorem of_matches (hb : Begins topic listed log cursors)
    (hmatches : Start.Matches topic (log.partitionNumbers topic) listed) :
    ∀ c ∈ cursors, ∃ offset, Position.offsetOf? listed topic c.partition = some offset ∧
      c.next = max offset (log.slot topic c.partition).low := by
  intro c hc
  have hi : c.partition ∈ log.partitionNumbers topic := hb.partitions ▸ List.mem_map_of_mem hc
  obtain ⟨offset, hrow⟩ :=
    Option.isSome_iff_exists.mp (Position.isSome_offsetOf?.mpr ((hmatches _).mp hi))
  have hnext := hb.within (fun i hi => (hmatches i).mpr hi) c hc
  rw [hrow, Option.elim_some] at hnext
  exact ⟨offset, hrow, hnext⟩

/-- All begin at their low watermarks if a row was found elsewhere, or none above them. -/
theorem lowest_iff (hb : Begins topic listed log cursors) :
    (∀ c ∈ cursors, c.next = (log.slot topic c.partition).low) ↔
      (∃ i ∈ Position.partitionsOf listed topic, i ∉ log.partitionNumbers topic) ∨
        ∀ i ∈ log.partitionNumbers topic, ∀ offset,
          Position.offsetOf? listed topic i = some offset → offset ≤ (log.slot topic i).low := by
  constructor
  · intro hall
    by_cases hastray : ∃ i ∈ Position.partitionsOf listed topic, i ∉ log.partitionNumbers topic
    · exact .inl hastray
    · push Not at hastray
      refine .inr fun i hi offset hrow => ?_
      rw [← hb.partitions] at hi
      obtain ⟨c, hc, rfl⟩ := List.mem_map.mp hi
      have hnext := hb.within hastray c hc
      rw [hrow, Option.elim_some, hall c hc] at hnext
      exact max_eq_right_iff.mp hnext.symm
  · intro hcases c hc
    by_cases hastray : ∃ i ∈ Position.partitionsOf listed topic, i ∉ log.partitionNumbers topic
    · exact hb.astray hastray c hc
    · have hbelow := hcases.resolve_left hastray
      push Not at hastray
      have hi : c.partition ∈ log.partitionNumbers topic := hb.partitions ▸ List.mem_map_of_mem hc
      rw [hb.within hastray c hc]
      cases hrow : Position.offsetOf? listed topic c.partition with
      | none => rfl
      | some offset => exact max_eq_right (hbelow c.partition hi offset hrow)

end Begins

/-- Let a run get to where its consumer takes over, on a store with contents, while others append to
the log and drop records of it. The consumer takes over every partition. If the partitions that had
rows in the ledger found are those of the topic, each begins at its row, or at its low watermark if
that is higher. For any other ledger, all begin at their low watermarks just if a row was found for
a partition that the topic does not have, or no row of the topic was found above the low watermark
of its partition. Where partitions have only been added, the others begin at their rows. -/
theorem consumption_begins (s : Settings) (n : Int) (changes : List LogChange)
    {store : StateStore} {files : FileTree} {found : Contents} (hstore : store.Carries files found)
    (subjects : Option (Except BrokerError (List String))) (events : List Event)
    (hrun : ∀ e ∈ events, e.InRun)
    (hroomy : store.root?.isSome → ∀ past, past <+: events →
      ((start ((Log.empty n).changeAll changes) store files subjects).run s past).Roomy s.topic)
    {framing : Framing} {starts : List PartitionStart}
    (hs : ((start ((Log.empty n).changeAll changes) store files subjects).run s events).stage =
      .assigning framing starts) :
    let h := (start ((Log.empty n).changeAll changes) store files subjects).run s events
    ∃ listed cursors, store.ledger files = .ok listed ∧
      h.request s = { h with
        stage := .checkingStop framing
        world := { h.world with consumer := { h.world.consumer with
          topic := some s.topic
          cursors := cursors
          turn := 0 } } } ∧
      Begins s.topic listed h.log cursors ∧
      (Start.Matches s.topic (h.log.partitionNumbers s.topic) listed → ∀ c ∈ cursors,
        ∃ offset, Position.offsetOf? listed s.topic c.partition = some offset ∧
          c.next = max offset (h.log.slot s.topic c.partition).low) ∧
      (¬ Start.Matches s.topic (h.log.partitionNumbers s.topic) listed →
        ((∀ c ∈ cursors, c.next = (h.log.slot s.topic c.partition).low) ↔
          (∃ i ∈ Position.partitionsOf listed s.topic, i ∉ h.log.partitionNumbers s.topic) ∨
            ∀ i ∈ h.log.partitionNumbers s.topic, ∀ offset,
              Position.offsetOf? listed s.topic i = some offset →
                offset ≤ (h.log.slot s.topic i).low)) := by
  intro h
  have hlog : ((Log.empty n).changeAll changes).Sound := (Log.sound_empty n).changeAll changes
  have hstart := Steady.start hlog store files subjects
  have hnumbers := hstart.partitionNumbers_past (s := s) s.topic events
  obtain ⟨m, hk, -⟩ := Keeps.run (Keeps.start hstore subjects (hnumbers [] List.nil_prefix)) hstart
    events hrun hroomy hnumbers
  obtain ⟨listed, hlisted, hlists⟩ := hstore.ledger
  have hbegins := hk.begins hs hlists
  exact ⟨listed, _, hlisted, hk.assigns hs, hbegins, hbegins.of_matches,
    fun _ => hbegins.lowest_iff⟩

/-- A store with a row for each of two partitions. -/
def bothKept : StateStore :=
  ((StateStore.openDict.advance [] ⟨"kv", 1, 1⟩).2.1.advance [] ⟨"kv", 0, 1⟩).2.1

theorem carries_bothKept :
    bothKept.Carries [] ((({} : Contents).advance ⟨"kv", 1, 1⟩).advance ⟨"kv", 0, 1⟩) := by
  have hfresh : StateStore.openDict.Fresh [] := rfl
  have hsecond := hfresh.holds.advance ⟨"kv", 1, 1⟩ nofun
  exact (hsecond.holds.advance ⟨"kv", 0, 1⟩ nofun).holds.carries

/-- While a run gets to where its consumer takes over, the first of the partitions is cut. -/
def raisedEvents : List Event :=
  List.replicate 8 .request ++ [.change (.truncate "kv" 0 2)]

def raised : History :=
  (start ((Log.empty 2).changeAll haltedChanges) bothKept [] none).run
    ⟨"kv", .disabled, false, {}⟩ raisedEvents

/-- The second partition begins at its row, the first behind what was dropped. -/
theorem consumption_begins_raised :
    ∃ cursors, (raised.request ⟨"kv", .disabled, false, {}⟩).world.consumer.cursors = cursors ∧
      cursors.map Cursor.partition = [0, 1] ∧
      ∀ c ∈ cursors, c.next = max 1 (raised.log.slot "kv" c.partition).low := by
  have hs : raised.stage =
      .assigning {} [⟨0, .atOffset 1⟩, ⟨1, .atOffset 1⟩] := by cbv
  obtain ⟨listed, cursors, hlisted, hrequest, hbegins, hmatched, -⟩ := consumption_begins
    ⟨"kv", .disabled, false, {}⟩ 2 haltedChanges carries_bothKept none raisedEvents
    (by simp [raisedEvents, or_imp, forall_and, Event.InRun])
    (by rintro ⟨⟩) hs
  rw [← raised] at hrequest hbegins hmatched
  have hnumbers : raised.log.partitionNumbers "kv" = [0, 1] := by cbv
  obtain rfl : listed = [⟨"kv", 0, 1⟩, ⟨"kv", 1, 1⟩] := by
    have hcomputed : bothKept.ledger [] = .ok [⟨"kv", 0, 1⟩, ⟨"kv", 1, 1⟩] := by cbv
    exact Except.ok.inj (hlisted.symm.trans hcomputed)
  have hpartitions := hbegins.partitions
  rw [hnumbers] at hpartitions hmatched
  have hmatches : Start.Matches "kv" [0, 1] [⟨"kv", 0, 1⟩, ⟨"kv", 1, 1⟩] := fun _ => Iff.rfl
  refine ⟨cursors, by rw [hrequest], hpartitions, fun c hc => ?_⟩
  obtain ⟨offset, hrow, hnext⟩ := hmatched hmatches c hc
  have hi : c.partition ∈ ([0, 1] : List Int) := hpartitions ▸ List.mem_map_of_mem hc
  simp only [List.mem_cons, List.not_mem_nil, or_false] at hi
  rw [hnext]
  rcases hi with hi | hi
  · rw [hi] at hrow
    obtain rfl : 1 = offset := Option.some.inj hrow
    rfl
  · rw [hi] at hrow
    obtain rfl : 1 = offset := Option.some.inj hrow
    rfl

/-- A store with a row for the first partition, from when there was no other. -/
def firstKept : StateStore := (StateStore.openDict.advance [] ⟨"kv", 0, 1⟩).2.1

/-- A run on a log of two partitions that has two records in the first. -/
def widened (requests : Nat) : History :=
  (start ((Log.empty 2).changeAll
    [.append "kv" ⟨[4], some [40], []⟩, .append "kv" ⟨[5], some [50], []⟩]) firstKept [] none).run
    ⟨"kv", .disabled, false, {}⟩ (List.replicate requests .request)

/-- The ledger does not match the partitions, but the first is resumed, and its first record is not
applied. -/
theorem widened_resumes :
    firstKept.ledger [] = .ok [⟨"kv", 0, 1⟩] ∧ (widened 9).log.partitionNumbers "kv" = [0, 1] ∧
      ¬ Start.Matches "kv" [0, 1] [⟨"kv", 0, 1⟩] ∧
      (widened 10).world.consumer.cursors = [⟨0, 1⟩, ⟨1, 0⟩] ∧
      ((widened 9).log.slot "kv" 0).low = 0 ∧
      (widened 20).world.consumer.next? (widened 20).log = none ∧
      (widened 20).world.store.get? (widened 20).world.files [4] = .ok none := by
  refine ⟨by cbv, by cbv, fun hmatches => ?_, by cbv, by cbv, by cbv, by cbv⟩
  have hmem := (hmatches 1).mp (by decide)
  revert hmem
  decide

end KeyedLog.Replay.History
