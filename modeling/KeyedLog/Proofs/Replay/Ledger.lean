import KeyedLog.Proofs.Replay.Keeping

/-!
# The ledger of a run

However a run goes on, and wherever it is stopped, its ledger is the one it found with a row added
for each partition that had none, and with the records entered that it has applied.
-/
namespace KeyedLog.Replay.History

variable {s : Settings} {found m : Contents} {partitions : List Int} {h : History}

namespace Keeps

theorem after (hk : Keeps s found partitions h m) (hsteady : h.Steady)
    (hroomy : h.world.store.root?.isSome → h.Roomy s.topic) {e : Event} (he : e.InRun)
    (hnumbers : (h.after s e).log.Exists s.topic →
      (h.after s e).log.partitionNumbers s.topic = partitions) :
    Keeps s found partitions (h.after s e) (h.contentsAfter e m) := by
  cases e with
  | request => exact hk.request hsteady hroomy hnumbers
  | change c => exact hk.changeLog hsteady.sound c hnumbers
  | stop kind =>
    exact ⟨hk.carries, hk.exist, hk.numbers, hk.opened, hk.others, hk.rows, hk.marks, hk.flight,
      hk.pace⟩
  | ask => exact hk.relatch _ (StateStore.ready_backing _ _)
  | restart latch => exact he.elim

theorem below_after (hk : Keeps s found partitions h m)
    (hwithin : found.Within s.topic partitions) (e : Event) :
    m.Below s.topic (h.contentsAfter e m) := by
  cases e with
  | request => exact hk.below hwithin
  | _ => exact .of_offset? rfl

theorem start {log : Log} {store : StateStore} {files : FileTree}
    (hstore : store.Carries files found) (subjects : Option (Except BrokerError (List String)))
    (hnumbers : log.Exists s.topic → log.partitionNumbers s.topic = partitions) :
    Keeps s found partitions (start log store files subjects) found where
  carries := hstore
  exist := .inl rfl
  numbers := hnumbers
  opened := fun _ => rfl
  others := fun _ _ _ => rfl
  rows := fun i _ _ => (Option.or_none (o := found.offset? s.topic i)).symm
  marks := nofun
  flight := nofun
  pace := ⟨rfl, rfl⟩

/-- However a run goes on, it keeps the ledger, and it sets no row of the topic back unless rows
were found elsewhere. -/
theorem run (hk : Keeps s found partitions h m) (hsteady : h.Steady) (events : List Event)
    (hrun : ∀ e ∈ events, e.InRun)
    (hroomy : h.world.store.root?.isSome → ∀ past, past <+: events →
      (h.run s past).Roomy s.topic)
    (hnumbers : ∀ past, past <+: events → (h.run s past).log.Exists s.topic →
      (h.run s past).log.partitionNumbers s.topic = partitions) :
    ∃ m', Keeps s found partitions (h.run s events) m' ∧
      (found.Within s.topic partitions → m.Below s.topic m') := by
  induction events using List.reverseRecOn with
  | nil => exact ⟨m, hk, fun _ => .of_offset? rfl⟩
  | append_singleton events e ih =>
    have hpast : events <+: events ++ [e] := List.prefix_append _ _
    obtain ⟨m', hk', hbelow⟩ := ih (fun e' he' => hrun e' (List.mem_append_left _ he'))
      (fun hroot past hbefore => hroomy hroot past (hbefore.trans hpast))
      fun past hbefore => hnumbers past (hbefore.trans hpast)
    have hsteady' := hsteady.run (s := s) events
    have hnext := hnumbers (events ++ [e]) (List.prefix_refl _)
    rw [run_concat] at hnext ⊢
    refine ⟨(h.run s events).contentsAfter e m', hk'.after hsteady' (fun hroot => ?_)
      (hrun e (List.mem_append_right _ List.mem_cons_self)) hnext, fun hwithin => ?_⟩
    · rw [root?_run] at hroot
      exact hroomy hroot events hpast
    · exact (hbelow hwithin).trans (hk'.below_after hwithin e)

end Keeps

/-- The partitions of a topic stay the same once it is there. -/
theorem Steady.partitionNumbers_run (hsteady : h.Steady) {topic : String}
    (hexist : h.log.Exists topic) (events : List Event) :
    (h.run s events).log.Exists topic ∧
      (h.run s events).log.partitionNumbers topic = h.log.partitionNumbers topic := by
  induction events using List.reverseRecOn with
  | nil => exact ⟨hexist, rfl⟩
  | append_singleton events e ih =>
    obtain ⟨hexist', hnumbers⟩ := ih
    have hsteady' := hsteady.run (s := s) events
    rw [run_concat]
    rcases (log_after (s := s) hsteady'.due e).2 with hlog | ⟨c, hlog, -⟩
    · rw [hlog]
      exact ⟨hexist', hnumbers⟩
    · rw [hlog, Log.partitionNumbers_change hsteady'.sound hexist']
      exact ⟨hexist'.change hsteady'.sound c, hnumbers⟩

/-- At any moment the topic has the partitions that it has in the end, once it is there. -/
theorem Steady.partitionNumbers_past (hsteady : h.Steady) (topic : String) (events : List Event) :
    ∀ past, past <+: events → (h.run s past).log.Exists topic →
      (h.run s past).log.partitionNumbers topic = (h.run s events).log.partitionNumbers topic := by
  rintro past ⟨rest, rfl⟩ hexist
  rw [run_append]
  exact ((hsteady.run past).partitionNumbers_run hexist rest).2.symm

/-- What the ledger at one moment of a run has to do with the ledger that was found, and with the
ledger at an earlier moment. -/
structure Kept (topic : String) (partitions : List Int) (found earlier rows : List Position)
    (h : History) : Prop where
  others : ∀ other i, other ≠ topic ∨ i ∉ partitions →
    Position.offsetOf? rows other i = Position.offsetOf? found other i
  seeded : h.applied = [] → ∀ i,
    Position.offsetOf? rows topic i = Position.offsetOf? found topic i ∨
      Position.offsetOf? found topic i = none ∧
        ∃ w, (i, w) ∈ h.captured ∧ Position.offsetOf? rows topic i = some w.low
  forward : (∀ i ∈ Position.partitionsOf found topic, i ∈ partitions) → ∀ i offset,
    Position.offsetOf? earlier topic i = some offset →
      ∃ offset', Position.offsetOf? rows topic i = some offset' ∧ offset ≤ offset'
  follows : ∀ i ∈ partitions, h.stage.entering?.map Position.partition ≠ some i →
    Position.offsetOf? rows topic i = h.row? topic i (Position.offsetOf? found topic i)
  complete : (∃ framing, h.stage = .polling framing) ∨ h.stage = .finished (.ok ()) →
    h.stage.entering? = none ∧ ∀ i ∈ partitions, (Position.offsetOf? rows topic i).isSome

/-- As long as nothing has been applied, the ledger has been added to only. -/
theorem Keeps.seeded (hk : Keeps s found partitions h m) (happlied : h.applied = []) (i : Int) :
    m.offset? s.topic i = found.offset? s.topic i ∨
      found.offset? s.topic i = none ∧
        ∃ w, (i, w) ∈ h.captured ∧ m.offset? s.topic i = some w.low := by
  by_cases hi : i ∈ partitions
  · by_cases hentering : h.stage.entering?.map Position.partition = some i
    · left
      have hpace := hk.pace
      cases hs : h.stage with
      | seeding framing all ledger noted seed todo =>
        rw [hs] at hpace hentering
        obtain ⟨-, -, -, -, -, -, hnone, hnone'⟩ := hpace
        obtain rfl : seed.partition = i := Option.some.inj hentering
        rw [hnone, hnone']
      | recording framing place =>
        rw [hs, happlied] at hpace
        cases hpace.2.2
      | _ =>
        rw [hs] at hentering
        cases hentering
    · have hrow := hk.rows i hi hentering
      rw [row?, happlied] at hrow
      cases hfound : found.offset? s.topic i with
      | some offset =>
        rw [hfound] at hrow
        exact .inl hrow
      | none =>
        rw [hfound] at hrow
        cases hmark : lowMark? h.captured i with
        | none =>
          rw [hmark] at hrow
          exact .inl hrow
        | some low =>
          rw [hmark] at hrow
          obtain ⟨w, hw, rfl⟩ := exists_mem_of_lowMark? hmark
          exact .inr ⟨rfl, w, hw, hrow⟩
  · exact .inl (hk.others s.topic i (.inr hi))

theorem Keeps.kept (hk : Keeps s found partitions h m) {m₀ : Contents}
    (hbelow : found.Within s.topic partitions → m₀.Below s.topic m)
    {listed earlier rows : List Position} (hlisted : found.Lists listed)
    (hearlier : m₀.Lists earlier) (hrows : m.Lists rows) :
    Kept s.topic partitions listed earlier rows h where
  others := by
    intro other i hother
    rw [hrows.offsetOf?, hlisted.offsetOf?]
    exact hk.others other i hother
  seeded := by
    intro happlied i
    rw [hrows.offsetOf?, hlisted.offsetOf?]
    exact hk.seeded happlied i
  forward := by
    intro hall i offset
    rw [hrows.offsetOf?, hearlier.offsetOf?]
    refine hbelow (fun j hj => ?_) i offset
    rw [← hlisted.offsetOf?, Position.isSome_offsetOf?] at hj
    exact hall j hj
  follows := by
    intro i hi hentering
    rw [hrows.offsetOf?, hlisted.offsetOf?]
    exact hk.rows i hi hentering
  complete := by
    intro hstage
    have hpace := hk.pace
    have hall : h.stage.entering? = none ∧ h.captured.map Prod.fst = partitions := by
      rcases hstage with ⟨framing, hs⟩ | hs
      · rw [hs] at hpace ⊢
        exact ⟨rfl, hpace.captured⟩
      · rw [hs] at hpace ⊢
        exact ⟨rfl, hpace rfl⟩
    refine ⟨hall.1, fun i hi => ?_⟩
    rw [hrows.offsetOf?]
    exact hk.isSome_row hall.1 hall.2 hi

/-- Let a run go on in any way on a store with contents, while others append to the log and drop
records of it, and look at two moments of it. Rows of other topics, and of partitions that the topic
does not have, are as they were found. Before anything is applied, rows are added for partitions
that had none, each with a low watermark that was captured. Between the two moments no row of the
topic is set back, unless rows were found for partitions it does not have. When the run is about to
poll, and when it has ended well, each partition has a row, for the last record of it that was
applied, if any was, or else the row that was found or added. -/
theorem ledger_follows_run (s : Settings) (n : Int) (changes : List LogChange)
    {store : StateStore} {files : FileTree} {found : Contents} (hstore : store.Carries files found)
    (subjects : Option (Except BrokerError (List String))) (before after : List Event)
    (hrun : ∀ e ∈ before ++ after, e.InRun)
    (hroomy : store.root?.isSome → ∀ past, past <+: before ++ after →
      ((start ((Log.empty n).changeAll changes) store files subjects).run s past).Roomy s.topic) :
    let h := (start ((Log.empty n).changeAll changes) store files subjects).run s before
    let h' := h.run s after
    ∃ listed earlier rows, store.ledger files = .ok listed ∧
      h.world.store.ledger h.world.files = .ok earlier ∧
      h'.world.store.ledger h'.world.files = .ok rows ∧
      Kept s.topic (h'.log.partitionNumbers s.topic) listed earlier rows h' := by
  intro h h'
  have hlog : ((Log.empty n).changeAll changes).Sound := (Log.sound_empty n).changeAll changes
  have hstart := Steady.start hlog store files subjects
  have hsteady : h.Steady := hstart.run before
  have hwhole : h' = (start ((Log.empty n).changeAll changes) store files subjects).run s
      (before ++ after) := (run_append _ _ _ _).symm
  have hnumbers := hstart.partitionNumbers_past (s := s) s.topic (before ++ after)
  rw [← hwhole] at hnumbers
  have hfirst : Keeps s found (h'.log.partitionNumbers s.topic)
      (start ((Log.empty n).changeAll changes) store files subjects) found :=
    Keeps.start hstore subjects (hnumbers [] List.nil_prefix)
  obtain ⟨m, hk, -⟩ := hfirst.run hstart before
    (fun e he => hrun e (List.mem_append_left _ he))
    (fun hroot past hpast => hroomy hroot past (hpast.trans (List.prefix_append _ _)))
    fun past hpast => hnumbers past (hpast.trans (List.prefix_append _ _))
  have hlater : ∀ past, past <+: after → before ++ past <+: before ++ after ∧ h.run s past =
      (start ((Log.empty n).changeAll changes) store files subjects).run s (before ++ past) :=
    fun past hpast => ⟨(List.prefix_append_right_inj before).mpr hpast, (run_append _ _ _ _).symm⟩
  have hroomy' : h.world.store.root?.isSome → ∀ past, past <+: after →
      (h.run s past).Roomy s.topic := by
    intro hroot past hpast
    rw [root?_run] at hroot
    rw [(hlater past hpast).2]
    exact hroomy hroot _ (hlater past hpast).1
  have hnumbers' : ∀ past, past <+: after → (h.run s past).log.Exists s.topic →
      (h.run s past).log.partitionNumbers s.topic = h'.log.partitionNumbers s.topic := by
    intro past hpast
    rw [(hlater past hpast).2]
    exact hnumbers _ (hlater past hpast).1
  obtain ⟨m', hk', hbelow⟩ := hk.run hsteady after
    (fun e he => hrun e (List.mem_append_right _ he)) hroomy' hnumbers'
  obtain ⟨listed, hlisted, hlists⟩ := hstore.ledger
  obtain ⟨earlier, hearlier, hlists'⟩ := hk.carries.ledger
  obtain ⟨rows, hrows, hlists''⟩ := hk'.carries.ledger
  exact ⟨listed, earlier, rows, hlisted, hearlier, hrows, hk'.kept hbelow hlists hlists' hlists''⟩

/-- A store with a row of another topic, and a row for the first of two partitions. -/
def halfKept : StateStore :=
  ((StateStore.openDict.advance [] ⟨"other", 7, 5⟩).2.1.advance [] ⟨"kv", 0, 1⟩).2.1

theorem carries_halfKept :
    halfKept.Carries [] ((({} : Contents).advance ⟨"other", 7, 5⟩).advance ⟨"kv", 0, 1⟩) := by
  have hfresh : StateStore.openDict.Fresh [] := rfl
  have hother := hfresh.holds.advance ⟨"other", 7, 5⟩ nofun
  exact (hother.holds.advance ⟨"kv", 0, 1⟩ nofun).holds.carries

/-- A log of two partitions, with three records in the first and one in the second. -/
def haltedChanges : List LogChange :=
  [.append "kv" ⟨[4], some [40], []⟩, .append "kv" ⟨[4], some [41], []⟩,
    .append "kv" ⟨[4], some [42], []⟩, .append "kv" ⟨[1], some [10], []⟩]

/-- While a run is under way, the second partition is cut and grows, and then the run is stopped. -/
def haltedEvents : List Event :=
  List.replicate 8 .request ++
    [.change (.truncate "kv" 1 1), .change (.append "kv" ⟨[1], none, []⟩)] ++
    List.replicate 8 .request ++ [.stop .raise] ++ List.replicate 6 .request

def halted : History :=
  ((start ((Log.empty 2).changeAll haltedChanges) halfKept [] none).run
    ⟨"kv", .disabled, false, {}⟩ (List.replicate 11 .request)).run
    ⟨"kv", .disabled, false, {}⟩ haltedEvents

theorem ledger_follows_run_halted :
    halted.stage = .finished (.ok ()) ∧
      halted.applied.map Prod.fst = [⟨"kv", 0, 1⟩, ⟨"kv", 1, 0⟩, ⟨"kv", 0, 2⟩] ∧
      ∃ rows, halted.world.store.ledger halted.world.files = .ok rows ∧
        Position.offsetOf? rows "kv" 0 = some 2 ∧ Position.offsetOf? rows "kv" 1 = some 0 ∧
        Position.offsetOf? rows "other" 7 = some 5 := by
  obtain ⟨listed, earlier, rows, hlisted, -, hrows, hkept⟩ := ledger_follows_run
    ⟨"kv", .disabled, false, {}⟩ 2 haltedChanges carries_halfKept none (List.replicate 11 .request)
    haltedEvents (by simp [haltedEvents, or_imp, forall_and, Event.InRun])
    (by rintro ⟨⟩)
  rw [← halted] at hrows hkept
  have hstage : halted.stage = .finished (.ok ()) := by cbv
  have hentering : halted.stage.entering? = none := by rw [hstage]; rfl
  have hnumbers : halted.log.partitionNumbers "kv" = [0, 1] := by cbv
  rw [hnumbers] at hkept
  refine ⟨hstage, by cbv, rows, hrows, ?_, ?_, ?_⟩
  · rw [hkept.follows 0 (by decide) (by simp [hentering])]
    cbv
  · rw [hkept.follows 1 (by decide) (by simp [hentering])]
    cbv
  · rw [hkept.others "other" 7 (.inl (by decide))]
    obtain rfl : listed = [⟨"kv", 0, 1⟩, ⟨"other", 7, 5⟩] := by
      have hcomputed : halfKept.ledger [] = .ok [⟨"kv", 0, 1⟩, ⟨"other", 7, 5⟩] := by cbv
      exact Except.ok.inj (hlisted.symm.trans hcomputed)
    decide

end KeyedLog.Replay.History
