import KeyedLog.Proofs.Replay.Resuming

/-!
# What was received is on the log

Where nothing is dropped from a topic, every change that runs decoded is that of a record still on
the log. So the log alone bounds how much there is to hold.
-/
namespace KeyedLog

/-- The keys of the changes on a topic. -/
def Decoder.keysOn (d : Decoder) (topic : String) (log : Log) : List Bytes :=
  (log.partitionNumbers topic).flatMap fun i =>
    (d.changes (log.slot topic i).records).map Change.key

/-- The keys, partitions and offsets on a topic are no more than a tree can number. -/
structure Log.Numbered (d : Decoder) (topic : String) (log : Log) : Prop where
  partitions : (log.partitionsOf topic).length ≤ 2 ^ 31
  offsets : ∀ i, (log.slot topic i).high ≤ Decimal.maxI64
  keys : ∀ g, ((d.keysOn topic log).toFinset.filter fun key => digest key = g).card < 2 ^ 32

namespace Decoder

variable {d : Decoder} {topic : String} {log : Log}

theorem mem_changes {records : List Record} {c : Change} :
    c ∈ d.changes records ↔ ∃ r ∈ records, d.decode r = .ok c := by
  have hread (r : Record) : (d.decode r).toOption = some c ↔ d.decode r = .ok c := by
    cases d.decode r with
    | error e => simp [Except.toOption]
    | ok c' => simp [Except.toOption]
  simp only [changes, List.mem_filterMap, hread]

theorem mem_keysOn {key : Bytes} : key ∈ d.keysOn topic log ↔
    ∃ i, ∃ r ∈ (log.slot topic i).records, ∃ c, d.decode r = .ok c ∧ c.key = key := by
  simp only [keysOn, List.mem_flatMap, List.mem_map, mem_changes]
  constructor
  · rintro ⟨i, -, c, ⟨r, hr, hdecode⟩, hkey⟩
    exact ⟨i, r, hr, c, hdecode, hkey⟩
  · rintro ⟨i, r, hr, c, hdecode, hkey⟩
    refine ⟨i, ?_, c, ⟨r, hr, hdecode⟩, hkey⟩
    by_contra hi
    rw [Log.slot_of_not_mem hi] at hr
    cases hr

end Decoder

namespace Replay.History

variable {x : Setup} {h : History} {m : Contents}

/-- The changes that runs decoded are on the log. -/
def Received (x : Setup) (h : History) : Prop :=
  ∀ c ∈ h.received, ∃ i, ∃ r ∈ (h.log.slot x.topic i).records, x.decoder.decode r = .ok c

theorem received_request (s : Settings) (hs : ∀ framing, h.stage ≠ .polling framing) :
    (h.request s).received = h.received := by
  simp only [request]
  split
  · next hstage _ => exact absurd hstage (hs _)
  · rfl

/-- Only a poll receives anything, which it finds on the log. -/
theorem Received.request (hr : Received x h) (ht : Tracks x h m) (hsteady : h.Steady) :
    ∀ c ∈ (h.request x.settings).received,
      ∃ i, ∃ r ∈ (h.log.slot x.topic i).records, x.decoder.decode r = .ok c := by
  by_cases hpolling : ∃ framing, h.stage = .polling framing
  · obtain ⟨framing, hs⟩ := hpolling
    have hframing := ht.framing framing (by rw [hs]; rfl)
    have hstand := ht.stand
    rw [hs] at hstand
    rcases request_polling (s := x.settings) hs hsteady.due with
      ⟨outcome, hrequest⟩ | ⟨now, -, hrequest⟩ |
      ⟨r, consumer, hnext, ⟨c, hdecode, hrequest⟩ | ⟨e, -, hrequest⟩⟩
    · rwa [hrequest]
    · rwa [hrequest]
    · rw [hrequest, List.forall_mem_append, List.forall_mem_singleton]
      refine ⟨hr, ?_⟩
      obtain ⟨k, cursor, -, hget, -⟩ := Consumer.next?_eq_some hstand.topic hnext
      rw [(hsteady.sound.slots x.topic cursor.partition).get?_eq_some_iff] at hget
      rw [hframing] at hdecode
      exact ⟨cursor.partition, r, hget.1, hdecode⟩
    · rwa [hrequest]
  · rw [received_request x.settings fun framing hs => hpolling ⟨framing, hs⟩]
    exact hr

theorem Received.after (hr : Received x h) (ht : Tracks x h m) (hsteady : h.Steady) {e : Event}
    (he : e.Retains x.topic) : Received x (h.after x.settings e) := by
  have hkept : ∀ i, ∀ r ∈ (h.log.slot x.topic i).records,
      r ∈ ((h.after x.settings e).log.slot x.topic i).records := by
    rcases (log_after (s := x.settings) hsteady.due e).2 with hlog | ⟨c, hlog, hc⟩
    · rw [hlog]
      exact fun _ _ hmem => hmem
    · rw [hlog]
      exact fun i r hmem => (Log.grows_slot hsteady.sound ((hc _).1 he) i).mem hmem
  have hreceived : ∀ c ∈ (h.after x.settings e).received,
      ∃ i, ∃ r ∈ (h.log.slot x.topic i).records, x.decoder.decode r = .ok c := by
    cases e with
    | request => exact hr.request ht hsteady
    | _ => exact hr
  intro c hc
  obtain ⟨i, r, hmem, hdecode⟩ := hreceived c hc
  exact ⟨i, r, hkept i r hmem, hdecode⟩

theorem Numbered.of_after (hsteady : h.Steady) {e : Event} (he : e.Retains x.topic)
    (hnumbered : (h.after x.settings e).log.Numbered x.decoder x.topic) :
    h.log.Numbered x.decoder x.topic := by
  rcases (log_after (s := x.settings) hsteady.due e).2 with hlog | ⟨c, hlog, hc⟩
  · rwa [hlog] at hnumbered
  · rw [hlog] at hnumbered
    refine ⟨?_, fun i => ?_, fun g => ?_⟩
    · exact Nat.le_trans (Log.length_partitionsOf_change hsteady.sound x.topic c)
        hnumbered.partitions
    · exact Int.le_trans (Log.changes_slot hsteady.sound c x.topic i).high_le
        (hnumbered.offsets i)
    · refine lt_of_le_of_lt (Finset.card_le_card (Finset.filter_subset_filter _ ?_))
        (hnumbered.keys g)
      intro key hkey
      rw [List.mem_toFinset, Decoder.mem_keysOn] at hkey ⊢
      obtain ⟨i, r, hr, hchange⟩ := hkey
      exact ⟨i, r, (Log.grows_slot hsteady.sound ((hc _).1 he) i).mem hr, hchange⟩

/-- What is on the log bounds what a history has come across. -/
theorem Received.sized (hr : Received x h) (hnumbered : h.log.Numbered x.decoder x.topic) :
    h.Sized x.topic where
  partitions := hnumbered.partitions
  offsets := hnumbered.offsets
  keys := by
    intro g
    refine lt_of_le_of_lt (Finset.card_le_card (Finset.filter_subset_filter _ ?_))
      (hnumbered.keys g)
    intro key hkey
    rw [List.mem_toFinset] at hkey
    obtain ⟨c, hc, rfl⟩ := List.mem_map.mp hkey
    obtain ⟨i, r, hmem, hdecode⟩ := hr c hc
    rw [List.mem_toFinset, Decoder.mem_keysOn]
    exact ⟨i, r, hmem, c, hdecode, rfl⟩

/-- Where nothing is dropped, a log that a tree can number makes for a history that one can. -/
theorem sized_of_numbered (s : Settings) {log : Log} (hlog : log.Sound) {store : StateStore}
    {files : FileTree} (hfresh : store.Fresh files)
    (subjects : Option (Except BrokerError (List String))) (events : List Event)
    (hretains : ∀ e ∈ events, e.Retains s.topic)
    (hnumbered : store.root?.isSome → ((start log store files subjects).run s events).log.Numbered
      (s.decoder subjects) s.topic) :
    store.root?.isSome → ((start log store files subjects).run s events).Sized s.topic := by
  -- no key is at home anywhere, so that nothing is asked of the keys on the log
  have hboth : ∃ m, Tracks ⟨s, subjects, store.root?, fun _ => none⟩
      ((start log store files subjects).run s events) m ∧
      Received ⟨s, subjects, store.root?, fun _ => none⟩
        ((start log store files subjects).run s events) := by
    induction events using List.reverseRecOn with
    | nil => exact ⟨{}, Tracks.start hlog hfresh rfl, nofun⟩
    | append_singleton events e ih =>
      have he := hretains e (List.mem_append_right _ List.mem_cons_self)
      have hsteady := (Steady.start hlog store files subjects).run (s := s) events
      rw [run_concat] at hnumbered ⊢
      have hbefore := fun hroot => Numbered.of_after (x := ⟨s, subjects, store.root?,
        fun _ => none⟩) hsteady he (hnumbered hroot)
      obtain ⟨m, ht, hr⟩ := ih (fun e he => hretains e (List.mem_append_left _ he)) hbefore
      exact ⟨_, ht.after hsteady (fun _ _ _ _ _ _ hj => by cases hj)
        (fun hroot => hr.sized (hbefore hroot)) (.inr fun _ => rfl), hr.after ht hsteady he⟩
  obtain ⟨m, -, hr⟩ := hboth
  exact fun hroot => hr.sized (hnumbered hroot)

end Replay.History

end KeyedLog
