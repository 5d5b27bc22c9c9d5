import KeyedLog.Proofs.Store.Holds

/-!
# All forms of a store answer alike

A run of calls on a store that was empty at first is answered as its contents would answer it,
whichever form the store has, in whatever order directories list their entries, and however often
a tree is closed and opened again in between.
-/
namespace KeyedLog

inductive StoreCall where
  | put (key value : Bytes) (correlation : String)
  | remove (key : Bytes)
  | get (key : Bytes)
  | advance (p : Position)
  | ledger
  deriving DecidableEq, Repr

inductive StoreAnswer where
  | done
  | found (stored : Option StoredValue)
  | rows (rows : List Position)
  deriving DecidableEq, Repr

/-- The numbers of a call have the widths of their types. -/
def StoreCall.InRange : StoreCall → Prop
  | .advance p => (Decimal.minI32 ≤ p.partition ∧ p.partition ≤ Decimal.maxI32) ∧
      Decimal.minI64 ≤ p.offset ∧ p.offset ≤ Decimal.maxI64
  | _ => True

/-! ## What the contents answer -/

namespace Contents

def after (m : Contents) : StoreCall → Contents
  | .put key value correlation => m.put key ⟨value, correlation⟩
  | .remove key => m.remove key
  | .get _ => m
  | .advance p => m.advance p
  | .ledger => m

def afterAll (m : Contents) (calls : List StoreCall) : Contents := calls.foldl after m

/-- The answer to one call. -/
inductive Answers (m : Contents) : StoreCall → StoreAnswer → Prop where
  | put {key value correlation} : Answers m (.put key value correlation) .done
  | remove {key} : Answers m (.remove key) .done
  | get {key} : Answers m (.get key) (.found (m.get? key))
  | advance {p} : Answers m (.advance p) .done
  | ledger {rows} : m.Lists rows → Answers m .ledger (.rows rows)

/-- The answers to calls, one after another. -/
inductive Replies : Contents → List StoreCall → List StoreAnswer → Prop where
  | nil {m} : Replies m [] []
  | cons {m c a calls answers} : Answers m c a → Replies (m.after c) calls answers →
      Replies m (c :: calls) (a :: answers)

theorem Answers.unique {m : Contents} {c : StoreCall} {a b : StoreAnswer} (ha : m.Answers c a)
    (hb : m.Answers c b) : a = b := by
  cases ha with
  | put => cases hb; rfl
  | remove => cases hb; rfl
  | get => cases hb; rfl
  | advance => cases hb; rfl
  | ledger h =>
    cases hb with
    | ledger h' => rw [h.unique h']

theorem Replies.unique {m : Contents} {calls : List StoreCall} {first second : List StoreAnswer}
    (h : m.Replies calls first) (h' : m.Replies calls second) : first = second := by
  induction h generalizing second with
  | nil => cases h'; rfl
  | cons ha _ ih =>
    cases h' with
    | cons hb hrest => rw [ha.unique hb, ih hrest]

end Contents

/-! ## What a store answers -/

/-- Another order of the entries of a tree. -/
structure Relisting where
  order : FileTree → FileTree
  perm : ∀ t : FileTree, t.Perm (order t)

/-- What happens to a store: a call, a change of the order directories are listed in, or that it
is closed and opened again. -/
inductive StoreEvent where
  | call (c : StoreCall)
  | relist (r : Relisting)
  | reopen

/-- The calls among the events. -/
def StoreEvent.calls (events : List StoreEvent) : List StoreCall :=
  events.filterMap fun
    | .call c => some c
    | _ => none

namespace StateStore

def call (s : StateStore) (files : FileTree) :
    StoreCall → Except StateError StoreAnswer × StateStore × FileTree
  | .put key value correlation =>
    let (result, s, files) := s.put files key value correlation
    (result.map fun () => .done, s, files)
  | .remove key =>
    let (result, s, files) := s.remove files key
    (result.map fun () => .done, s, files)
  | .get key => ((s.get? files key).map .found, s, files)
  | .advance p =>
    let (result, s, files) := s.advance files p
    (result.map fun () => .done, s, files)
  | .ledger => ((s.ledger files).map .rows, s, files)

/-- Open a tree again at its root; the other forms live as long as they are open. -/
def reopen (s : StateStore) (files : FileTree) : Except StateError StateStore × FileTree :=
  match s.backing with
  | .disk root => openDisk files root.base
  | _ => (.ok s, files)

/-- The answers to the calls among events, unless something fails. -/
def run (s : StateStore) (files : FileTree) :
    List StoreEvent → Except StateError (List StoreAnswer × StateStore × FileTree)
  | [] => .ok ([], s, files)
  | .call c :: rest =>
    match s.call files c with
    | (.error e, _, _) => .error e
    | (.ok a, s, files) =>
      (s.run files rest).map fun (answers, s, files) => (a :: answers, s, files)
  | .relist r :: rest => s.run (r.order files) rest
  | .reopen :: rest =>
    match s.reopen files with
    | (.error e, _) => .error e
    | (.ok s, files) => s.run files rest

variable {s : StateStore} {files : FileTree} {m : Contents}

namespace Holds

/-- The order in which directories list their entries is of no account. -/
theorem relist (h : s.Holds files m) (r : Relisting) : s.Holds (r.order files) m := by
  obtain ⟨backing, latch⟩ := s
  cases backing with
  | dict d => exact h
  | disk root => exact ⟨h.lies.perm (r.perm files), h.fits⟩
  | database d => exact h

theorem reopen (h : s.Holds files m) (hroot : ∀ root, s.root? = some root → root.below = []) :
    ∃ s' files', s.reopen files = (.ok s', files') ∧ s'.Holds files' m ∧ s'.root? = s.root? := by
  obtain ⟨backing, latch⟩ := s
  cases backing with
  | dict d => exact ⟨_, files, rfl, h, rfl⟩
  | disk root =>
    obtain ⟨base, below⟩ := root
    obtain rfl : below = [] := hroot _ rfl
    refine ⟨{ backing := .disk ⟨base, []⟩ }, files, ?_, h, rfl⟩
    simp only [StateStore.reopen, openDisk, h.lies.planOpen]
    rfl
  | database d => exact ⟨_, files, rfl, h, rfl⟩

/-- One call is answered as by the contents, and leaves behind what it leaves of them. -/
theorem call (h : s.Holds files m) (c : StoreCall) (hroom : s.Accepts (m.after c)) :
    ∃ a s' files', s.call files c = (.ok a, s', files') ∧ m.Answers c a ∧
      s'.Holds files' (m.after c) ∧ s'.root? = s.root? := by
  cases c with
  | put key value correlation =>
    have hput := h.put key value correlation hroom
    refine ⟨.done, _, _, ?_, .put, hput.holds, hput.root⟩
    simp only [StateStore.call, hput.ok, Except.map]
  | remove key =>
    have hremove := h.remove key
    refine ⟨.done, _, _, ?_, .remove, hremove.holds, hremove.root⟩
    simp only [StateStore.call, hremove.ok, Except.map]
  | get key =>
    refine ⟨.found (m.get? key), s, files, ?_, .get, h, rfl⟩
    simp only [StateStore.call, h.get? key, Except.map]
  | advance p =>
    have hadvance := h.advance p hroom
    refine ⟨.done, _, _, ?_, .advance, hadvance.holds, hadvance.root⟩
    simp only [StateStore.call, hadvance.ok, Except.map]
  | ledger =>
    obtain ⟨rows, hrows, hlists⟩ := h.ledger
    refine ⟨.rows rows, s, files, ?_, .ledger hlists, h, rfl⟩
    simp only [StateStore.call, hrows, Except.map]

theorem run (h : s.Holds files m) (hroot : ∀ root, s.root? = some root → root.below = [])
    (events : List StoreEvent)
    (hroom : ∀ n, s.Accepts (m.afterAll ((StoreEvent.calls events).take n))) :
    ∃ answers s' files', s.run files events = .ok (answers, s', files') ∧
      m.Replies (StoreEvent.calls events) answers ∧
      s'.Holds files' (m.afterAll (StoreEvent.calls events)) := by
  induction events generalizing s files m with
  | nil => exact ⟨[], s, files, rfl, .nil, h⟩
  | cons event rest ih =>
    cases event with
    | call c =>
      have hcalls : StoreEvent.calls (.call c :: rest) = c :: StoreEvent.calls rest := rfl
      rw [hcalls] at hroom ⊢
      obtain ⟨a, s', files', hcall, ha, h', hsame⟩ := h.call c (hroom 1)
      have hroom' : ∀ n, s'.Accepts ((m.after c).afterAll ((StoreEvent.calls rest).take n)) := by
        intro n
        rw [Accepts, hsame]
        exact hroom (n + 1)
      obtain ⟨answers, s'', files'', hrun, hreplies, h''⟩ := ih h' (hsame ▸ hroot) hroom'
      refine ⟨a :: answers, s'', files'', ?_, .cons ha hreplies, h''⟩
      simp only [StateStore.run, hcall, hrun, Except.map]
    | relist r => exact ih (h.relist r) hroot hroom
    | reopen =>
      obtain ⟨s', files', hreopen, h', hsame⟩ := h.reopen hroot
      obtain ⟨answers, s'', files'', hrun, hreplies, h''⟩ := ih h' (hsame ▸ hroot) (by
        intro n
        rw [Accepts, hsame]
        exact hroom n)
      refine ⟨answers, s'', files'', ?_, hreplies, h''⟩
      simp only [StateStore.run, hreopen, hrun]

end Holds

end StateStore

namespace Contents

theorem InRange.after {m : Contents} (h : m.InRange) {c : StoreCall} (hc : c.InRange) :
    (m.after c).InRange := by
  cases c with
  | put key value correlation => exact h
  | remove key => exact h
  | get key => exact h
  | ledger => exact h
  | advance p =>
    intro topic partition offset hrow
    rw [Contents.after, offset?_advance] at hrow
    split at hrow
    · next hsame =>
      rw [Option.some.injEq] at hrow
      rw [hsame.2, ← hrow]
      exact hc
    · exact h topic partition offset hrow

theorem InRange.afterAll {m : Contents} (h : m.InRange) {calls : List StoreCall}
    (hcalls : ∀ c ∈ calls, c.InRange) : (m.afterAll calls).InRange := by
  induction calls generalizing m with
  | nil => exact h
  | cons c rest ih =>
    exact ih (h.after (hcalls c List.mem_cons_self)) fun c hc =>
      hcalls c (List.mem_cons_of_mem _ hc)

/-- How many keys and rows there are. -/
def extent (m : Contents) : Nat := m.values.keys.card + m.offsets.keys.card

theorem extent_after (m : Contents) (c : StoreCall) : (m.after c).extent ≤ m.extent + 1 := by
  cases c with
  | put key value correlation =>
    have hsub : (m.put key ⟨value, correlation⟩).values.keys ⊆ insert key m.values.keys := by
      intro k
      simp [Contents.put, Finmap.mem_keys]
    have := (Finset.card_le_card hsub).trans (Finset.card_insert_le key m.values.keys)
    simp only [extent, after, Contents.put] at this ⊢
    omega
  | remove key =>
    have := Finset.card_erase_le (s := m.values.keys) (a := key)
    simp only [extent, after, Contents.remove, Finmap.keys_erase]
    omega
  | get key => exact Nat.le_succ _
  | advance p =>
    have hsub : (m.advance p).offsets.keys ⊆ insert (p.topic, p.partition) m.offsets.keys := by
      intro k
      simp [Contents.advance, Finmap.mem_keys]
    have := (Finset.card_le_card hsub).trans (Finset.card_insert_le _ m.offsets.keys)
    simp only [extent, after, Contents.advance] at this ⊢
    omega
  | ledger => exact Nat.le_succ _

theorem extent_afterAll (m : Contents) (calls : List StoreCall) :
    (m.afterAll calls).extent ≤ m.extent + calls.length := by
  induction calls generalizing m with
  | nil => exact Nat.le_refl _
  | cons c rest ih =>
    have hrest := ih (m.after c)
    have hfirst := m.extent_after c
    rw [List.length_cons]
    change ((m.after c).afterAll rest).extent ≤ _
    omega

/-- Fewer calls than thirty-two bits can number leave enough room. -/
theorem roomy_of_length {calls : List StoreCall} (h : calls.length < 2 ^ 32) (n : Nat) :
    (afterAll {} (calls.take n)).Roomy := by
  have hextent := extent_afterAll {} (calls.take n)
  have hzero : ({} : Contents).extent = 0 := rfl
  have hlength := List.length_take_le' n calls
  rw [hzero, extent] at hextent
  constructor
  · intro d
    have := Finset.card_filter_le (afterAll {} (calls.take n)).values.keys fun key => digest key = d
    rw [keysIn]
    omega
  · intro d
    have himage :=
      Finset.card_image_le (s := (afterAll {} (calls.take n)).offsets.keys) (f := Prod.fst)
    have := Finset.card_filter_le ((afterAll {} (calls.take n)).offsets.keys.image Prod.fst)
      fun topic => digest (Utf8.encode topic) = d
    rw [topicsIn]
    omega

end Contents

/-- Whatever is called, every store that was empty at first gives the answers its contents give,
and the number of keys it tells is theirs. -/
theorem StateStore.run_agrees (calls : List StoreCall) (hrange : ∀ c ∈ calls, c.InRange)
    (hroom : ∀ n, (Contents.afterAll {} (calls.take n)).Roomy) :
    ∃ answers, Contents.Replies {} calls answers ∧
      ∀ (s : StateStore) (files : FileTree) (events : List StoreEvent), s.Fresh files →
        StoreEvent.calls events = calls →
        ∃ s' files', s.run files events = .ok (answers, s', files') ∧
          ∀ d, s'.backing = .dict d → d.size = (Contents.afterAll {} calls).values.keys.card := by
  have hfits : ∀ n, (Contents.afterAll {} (calls.take n)).Fits := fun n =>
    ⟨hroom n, Contents.fits_empty.ranges.afterAll fun c hc => hrange c (List.mem_of_mem_take hc)⟩
  have hrun : ∀ (s : StateStore) (files : FileTree) (events : List StoreEvent), s.Fresh files →
      StoreEvent.calls events = calls → ∃ answers s' files',
        s.run files events = .ok (answers, s', files') ∧ Contents.Replies {} calls answers ∧
          s'.Holds files' (Contents.afterAll {} calls) := by
    rintro s files events hfresh rfl
    apply hfresh.holds.run hfresh.root
    exact fun n _ => hfits n
  obtain ⟨answers, _, _, _, hreplies, _⟩ :=
    hrun openDict [] (calls.map .call) rfl (by simp [StoreEvent.calls, List.filterMap_map])
  refine ⟨answers, hreplies, fun s files events hfresh hevents => ?_⟩
  obtain ⟨answers', s', files', hanswers, hreplies', hholds⟩ := hrun s files events hfresh hevents
  rw [hreplies'.unique hreplies] at hanswers
  refine ⟨s', files', hanswers, fun d hd => ?_⟩
  rw [Holds, hd] at hholds
  exact Dict.Holds.size hholds

/-- A tree in an empty directory, closed and opened again between two calls. -/
theorem StateStore.run_agrees_reopened : ∃ s' files',
    run { backing := .disk ⟨"", []⟩ } [] [.call (.put [1] [] "c"), .reopen,
      .relist ⟨List.reverse, fun t => t.reverse_perm.symm⟩, .call (.get [1])] =
        .ok ([.done, .found (some ⟨[], "c"⟩)], s', files') := by
  obtain ⟨answers, hreplies, hrun⟩ := run_agrees [.put [1] [] "c", .get [1]]
    (by simp [StoreCall.InRange]) (Contents.roomy_of_length (by decide))
  obtain ⟨s', files', hok, -⟩ := hrun { backing := .disk ⟨"", []⟩ } []
    [.call (.put [1] [] "c"), .reopen, .relist ⟨List.reverse, fun t => t.reverse_perm.symm⟩,
      .call (.get [1])]
    ⟨rfl, FileTree.wellFormed_nil, by
      simp [FileTree.isEmptyDirectory, FileTree.list, FileTree.place, Location.path,
        Path.ofText_empty, FileTree.walk, FileTree.namesAt]⟩ rfl
  have hget : (Contents.afterAll {} [.put [1] [] "c"]).get? [1] = some ⟨[], "c"⟩ := by
    simp [Contents.afterAll, Contents.after, Contents.get?_put]
  have hanswers : Contents.Replies {} [.put [1] [] "c", .get [1]]
      [.done, .found (some ⟨[], "c"⟩)] := by
    rw [← hget]
    exact .cons .put (.cons .get .nil)
  rw [hreplies.unique hanswers] at hok
  exact ⟨s', files', hok⟩

end KeyedLog
