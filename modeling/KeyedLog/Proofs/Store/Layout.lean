import KeyedLog.Proofs.FileTree.Sparing
import KeyedLog.Proofs.Store.Parity

/-!
# What the tree of a store consists of

However often a store on a tree is called, each live key has one slot there, numbered as low as the
other keys allowed when it came, and apart from the ledger there is nothing but these slots and the
directories on the way to them.
-/
namespace KeyedLog

/-! ## How many keys were live -/

namespace Contents

/-- At some time in a run of calls a digest had more live keys than a number says. -/
def Exceeds (calls : List StoreCall) (d : String) (n : Nat) : Prop :=
  ∃ i ≤ calls.length, n < ((afterAll {} (calls.take i)).keysIn d).card

theorem Exceeds.concat {calls : List StoreCall} {d : String} {n : Nat} (h : Exceeds calls d n)
    (c : StoreCall) : Exceeds (calls ++ [c]) d n := by
  obtain ⟨i, hi, hn⟩ := h
  refine ⟨i, ?_, ?_⟩
  · rw [List.length_append]
    omega
  · rwa [List.take_append_of_le_length hi]

theorem afterAll_concat (m : Contents) (calls : List StoreCall) (c : StoreCall) :
    m.afterAll (calls ++ [c]) = (m.afterAll calls).after c := by
  rw [afterAll, List.foldl_append]
  rfl

theorem exceeds_now {calls : List StoreCall} {d : String} {n : Nat}
    (h : n < ((afterAll {} calls).keysIn d).card) : Exceeds calls d n :=
  ⟨calls.length, Nat.le_refl _, by rwa [List.take_length]⟩

end Contents

namespace Disk

open FileTree (Plain Apart Spares)
open Function (update)

/-! ## Slots, and nothing else -/

/-- The files of a directory of slots. -/
abbrev slotsAt (v : Path → Option Node) (d : String) : String → Option Node :=
  fun x => v (leafNames d ++ [x])

/-- The names outside of the ledger. -/
def Aside (names : Path) : Prop := ¬[ledgerName] <+: names

/-- A view of the slots of some keys, which shows no other file and no empty directory outside of
the ledger. -/
structure Neat (v : Path → Option Node) (g : Bytes → Option StoredValue) : Prop
    extends KeysHold v g where
  file : ∀ names node, Aside names → v names = some node → node ≠ .directory →
    ∃ key stored n extension, names = leafNames (digest key) ++ [Slot.name n extension] ∧
      extension ∈ Slot.extensions ∧ g key = some stored ∧
      Slot.Keeps (slotsAt v (digest key)) n key stored
  filled : ∀ names, Aside names → names ≠ [] → v names = some .directory →
    ∃ x, (v (names ++ [x])).isSome

variable {t : FileTree} {root : Location} {v w : Path → Option Node}
  {g : Bytes → Option StoredValue} {key : Bytes} {stored : StoredValue} {n : Nat} {d : String}

theorem aside_leafNames (d : String) (rest : Path) : Aside (leafNames d ++ rest) := by
  intro h
  exact topName_ne d (List.cons_prefix_cons.mp h).1.symm

theorem eq_of_concat_eq_leafNames {names : Path} {x : String} (h : names ++ [x] = leafNames d) :
    names = [topName d] := by
  rw [leafNames, ← List.singleton_append] at h
  exact List.append_inj_left' h rfl

theorem slotsAt_opened (v : Path → Option Node) (d e : String) :
    slotsAt (FileTree.opened v (leafNames d)) e = slotsAt v e :=
  funext fun _ => FileTree.opened_other not_prefix_below

/-- The slot of another number or of another digest stays as it is. -/
theorem SlotSet.keeps {a b c : Option Node} (hset : SlotSet v w (leafNames d) n a b c) {e : String}
    {m : Nat} (hne : e = d → m ≠ n) (h : Slot.Keeps (slotsAt v e) m key stored) :
    Slot.Keeps (slotsAt w e) m key stored := by
  by_cases he : e = d
  · subst he
    have hslots : slotsAt w e = Slot.setSlot (slotsAt v e) n a b c := hset.2
    rw [hslots]
    exact (Slot.keeps_setSlot (hne rfl)).mpr h
  · have hsame : slotsAt w e = slotsAt v e := by
      funext x
      apply hset.1
      intro y heq
      exact he (leafNames_inj (List.append_inj_left' heq rfl))
    rwa [hsame]

/-- The key of a slot has no other slot. -/
theorem KeysHold.slot_unique (h : KeysHold v g) {m : Nat}
    (hkey : v (leafNames d ++ [Slot.name m Slot.keyExtension]) = some (.file (.bytes key))) :
    d = digest key ∧ ∀ n stored, Slot.Keeps (slotsAt v (digest key)) n key stored → m = n := by
  obtain ⟨_, held, stored, hg, hkeeps⟩ := (h.slots d).keeps (n := m) (by rw [hkey]; rfl)
  obtain rfl : held = key := by simpa [hkeeps.key] using hkey
  have hd : digest held = d := by
    by_contra hne
    rw [if_neg hne] at hg
    cases hg
  subst hd
  exact ⟨rfl, fun n stored hslot => (h.slots _).once m n held hkey hslot.key⟩

theorem KeysHold.apart (h : KeysHold v g) (hsuits : Slot.Suits (slotsAt v (digest key)) g n key)
    {k : Bytes} {s : StoredValue} {m : Nat} (hk : g k = some s)
    (hkept : Slot.Keeps (slotsAt v (digest k)) m k s) (hne : k ≠ key) :
    digest k = digest key → m ≠ n := by
  rintro hd rfl
  rw [hd] at hkept
  have hsuits' : Slot.Suits (slotsAt v (digest key))
      (fun k => if digest k = digest key then g k else none) m key :=
    hsuits.imp_right fun hfree => ⟨hfree.1, (if_pos rfl).trans hfree.2⟩
  exact hne (((h.slots (digest key)).apart hsuits' hkept ((if_pos hd).trans hk)).mpr rfl)

/-- Nothing is left of a slot that was cleared. -/
theorem SlotSet.not_cleared (hset : SlotSet v w (leafNames d) n none none none) {names : Path}
    {node : Node} (hnode : w names = some node) :
    ∀ extension ∈ Slot.extensions, names ≠ leafNames d ++ [Slot.name n extension] := by
  rintro extension hext rfl
  have hnone : w (leafNames d ++ [Slot.name n extension]) = none := by
    rcases Slot.mem_extensions.mp hext with rfl | rfl | rfl
    · exact hset.keyFile
    · exact hset.valueFile
    · exact hset.correlationFile
  rw [hnone] at hnode
  cases hnode

namespace Stores

theorem keeps (hs : Stores v w g key stored n) : Slot.Keeps (slotsAt w (digest key)) n key stored :=
  ⟨hs.files.keyFile, hs.files.valueFile, hs.files.correlationFile⟩

/-- Other keys keep their slots. -/
theorem keeps_other (hs : Stores v w g key stored n) (h : KeysHold v g) {k : Bytes}
    {s : StoredValue} {m : Nat} (hk : g k = some s)
    (hkept : Slot.Keeps (slotsAt v (digest k)) m k s) (hne : k ≠ key) :
    Slot.Keeps (slotsAt w (digest k)) m k s := by
  apply hs.files.keeps (h.apart hs.takes.suits hk hkept hne)
  rwa [slotsAt_opened]

theorem neat (hs : Stores v w g key stored n) (h : Neat v g) :
    Neat w (update g key (some stored)) where
  toKeysHold := hs.keysHold h.toKeysHold
  file := by
    intro names node haside hnode hfile
    by_cases hnew : ∃ extension ∈ Slot.extensions,
        names = leafNames (digest key) ++ [Slot.name n extension]
    · obtain ⟨extension, hext, rfl⟩ := hnew
      exact ⟨key, stored, n, extension, rfl, hext, Function.update_self .., hs.keeps⟩
    · have hslot : ∀ extension ∈ Slot.extensions,
          names ≠ leafNames (digest key) ++ [Slot.name n extension] :=
        fun extension hext heq => hnew ⟨extension, hext, heq⟩
      rw [hs.files.same hslot, FileTree.opened] at hnode
      split at hnode
      · exact absurd (Option.some.inj hnode).symm hfile
      · obtain ⟨k, s, m, extension, rfl, hext, hk, hkept⟩ := h.file names node haside hnode hfile
        have hne : k ≠ key := by
          rintro rfl
          cases hs.takes with
          | held _ hkeeps =>
            exact hslot extension hext (by rw [(h.slots _).once m n k hkept.key hkeeps.key])
          | lowest hnone =>
            rw [hnone] at hk
            cases hk
        refine ⟨k, s, m, extension, rfl, hext, ?_, hs.keeps_other h.toKeysHold hk hkept hne⟩
        rw [Function.update_of_ne hne, hk]
  filled := by
    intro names haside hne hdir
    have hthere : w (leafNames (digest key)) = some .directory :=
      hs.files.directory (FileTree.opened_above (List.prefix_refl _))
    by_cases hway : names <+: leafNames (digest key)
    · rcases prefix_leafNames hway with rfl | rfl | rfl
      · exact absurd rfl hne
      · exact ⟨_, Option.isSome_of_eq_some hthere⟩
      · exact ⟨_, Option.isSome_of_eq_some hs.files.keyFile⟩
    · have hslots := ((hs.keysHold h.toKeysHold).slots (digest key)).files
      have hnot : ∀ x, names ≠ leafNames (digest key) ++ [x] := by
        rintro x rfl
        exact hslots x hdir
      rw [hs.files.1 names hnot, FileTree.opened_other hway] at hdir
      obtain ⟨x, hx⟩ := h.filled names haside hne hdir
      refine ⟨x, ?_⟩
      rw [hs.files.1, FileTree.opened_other fun hpre => hway ((List.prefix_append _ _).trans hpre)]
      · exact hx
      · intro y heq
        exact hway (by rw [List.append_inj_left' heq rfl])

/-- What is found was there, or it is the slot or on the way to it. -/
theorem found (hs : Stores v w g key stored n) {names : Path} (h : (w names).isSome) :
    (∃ extension ∈ Slot.extensions, names = leafNames (digest key) ++ [Slot.name n extension]) ∨
      names <+: leafNames (digest key) ∨ (v names).isSome := by
  by_cases hnew : ∃ extension ∈ Slot.extensions,
      names = leafNames (digest key) ++ [Slot.name n extension]
  · exact .inl hnew
  · rw [hs.files.same fun extension hext heq => hnew ⟨extension, hext, heq⟩,
      FileTree.opened] at h
    split at h
    · next hway => exact .inr (.inl hway)
    · exact .inr (.inr h)

theorem plain (hs : Stores v w g key stored n) (h : ∀ names, (v names).isSome → Plain names)
    {names : Path} (hsome : (w names).isSome) : Plain names := by
  rcases hs.found hsome with ⟨extension, hext, rfl⟩ | hway | hthere
  · exact Slot.plain_name (plain_leafNames key) (Slot.dotless_of_mem hext)
      (Slot.ne_empty_of_mem hext)
  · exact fun x hx => plain_leafNames key x (hway.subset hx)
  · exact h names hthere

/-- No other slot comes up. -/
theorem number (hs : Stores v w g key stored n) {m : Nat}
    (hm : (slotsAt w d (Slot.name m Slot.keyExtension)).isSome) :
    d = digest key ∧ m = n ∨ (slotsAt v d (Slot.name m Slot.keyExtension)).isSome := by
  rcases hs.found hm with ⟨extension, hext, heq⟩ | hway | hthere
  · obtain rfl := leafNames_inj (List.append_inj_left' heq rfl)
    exact .inl ⟨rfl, (Slot.name_inj_below Slot.dotless_key (Slot.dotless_of_mem hext) heq).1⟩
  · exact absurd hway not_prefix_below
  · exact .inr hthere

/-- There are more keys than the number of the slot says, once they are all there. -/
theorem number_lt {m : Contents} (hs : Stores v w m.get? key stored n) (h : KeysHold v m.get?)
    (hnew : m.get? key = none) : n < ((m.put key stored).keysIn (digest key)).card := by
  cases hs.takes with
  | held hstored =>
    rw [hnew] at hstored
    cases hstored
  | lowest _ _ hlowest =>
    refine lt_of_le_of_lt ?_ (Contents.card_keysIn_lt_put hnew stored)
    have hlive : ∀ k, (if digest k = digest key then m.get? k else none).isSome →
        k ∈ m.keysIn (digest key) := by
      intro k hk
      split at hk
      · next hd => exact Contents.mem_keysIn.mpr ⟨hk, hd⟩
      · cases hk
    have hlength := (h.slots (digest key)).length_le List.pairwise_lt_range
      (fun k hk => hlowest k (List.mem_range.mp hk)) hlive
    rwa [List.length_range] at hlength

end Stores

namespace Prunes

theorem same (hw : Prunes v d w) {names : Path} (hleaf : names ≠ leafNames d)
    (htop : names ≠ [topName d]) : w names = v names := by
  obtain ⟨hfirst, hsecond⟩ := hw
  cases hsecond with
  | kept _ hsame =>
    subst hsame
    cases hfirst with
    | kept _ hsame => rw [hsame]
    | empty _ hsame => rw [hsame, Function.update_of_ne hleaf]
  | empty _ hsame =>
    subst hsame
    rw [Function.update_of_ne htop]
    cases hfirst with
    | kept _ hsame => rw [hsame]
    | empty _ hsame => rw [hsame, Function.update_of_ne hleaf]

theorem slotsAt (hw : Prunes v d w) (e : String) : slotsAt w e = slotsAt v e :=
  funext fun _ => hw.same (by simp [leafNames]) (by simp [leafNames])

theorem found (hw : Prunes v d w) {names : Path} {node : Node} (h : w names = some node) :
    v names = some node := by
  obtain ⟨hfirst, hsecond⟩ := hw
  have hpruned : ∀ {v w : Path → Option Node} {dir : Path}, FileTree.Pruned v dir w →
      w names = some node → v names = some node := by
    rintro v w dir (⟨-, rfl⟩ | ⟨-, rfl⟩) h
    · rw [Function.update_apply] at h
      split at h
      · cases h
      · exact h
    · exact h
  exact hpruned hfirst (hpruned hsecond h)

/-- What is left has entries. -/
theorem filled (hw : Prunes v d w) {names : Path} (h : w names = some .directory)
    (hnames : names = leafNames d ∨ names = [topName d]) : ∃ x, (w (names ++ [x])).isSome := by
  obtain ⟨hfirst, hsecond⟩ := hw
  have hkept : ∀ {v w : Path → Option Node} {dir : Path}, FileTree.Pruned v dir w →
      w dir = some .directory → ∃ x, (v (dir ++ [x])).isSome ∧ w = v := by
    rintro v w dir (⟨-, rfl⟩ | ⟨hx, hsame⟩) h
    · rw [Function.update_self] at h
      cases h
    · exact ⟨_, hx, hsame⟩
  rcases hnames with rfl | rfl
  · cases hsecond with
    | kept _ hsame =>
      subst hsame
      obtain ⟨x, hx, rfl⟩ := hkept hfirst h
      exact ⟨x, hx⟩
    | empty _ hsame =>
      subst hsame
      rw [Function.update_of_ne (by simp [leafNames])] at h
      obtain ⟨x, hx, rfl⟩ := hkept hfirst h
      refine ⟨x, ?_⟩
      rw [Function.update_of_ne (by simp [leafNames])]
      exact hx
  · obtain ⟨x, hx, rfl⟩ := hkept hsecond h
    exact ⟨x, hx⟩

end Prunes

namespace Removes

/-- Nothing comes up. -/
theorem found (hr : Removes v w g key) {names : Path} {node : Node} (h : w names = some node) :
    v names = some node := by
  cases hr with
  | absent _ hw => rwa [← hw]
  | cleared _ _ _ hset hpruned =>
    have hu := hpruned.found h
    rw [← hset.same (hset.not_cleared hu)]
    exact hu

theorem neat (hr : Removes v w g key) (h : Neat v g) : Neat w (update g key none) := by
  have hkeys := hr.keysHold h.toKeysHold
  cases hr with
  | absent hnone hw =>
    rw [hw, ← hnone, Function.update_eq_self]
    exact h
  | @cleared n stored u _ hstored hkeeps hset hpruned =>
    refine ⟨hkeys, ?_, ?_⟩
    · intro names node haside hnode hfile
      have hu := hpruned.found hnode
      have hv := hu
      rw [hset.same (hset.not_cleared hu)] at hv
      obtain ⟨k, s, m, extension, rfl, hext, hk, hkept⟩ := h.file names node haside hv hfile
      have hne : k ≠ key := by
        rintro rfl
        have hmn := (h.slots _).once m n k hkept.key hkeeps.key
        exact hset.not_cleared hu extension hext (by rw [hmn])
      refine ⟨k, s, m, extension, rfl, hext, ?_, ?_⟩
      · rw [Function.update_of_ne hne, hk]
      · rw [hpruned.slotsAt]
        exact hset.keeps (h.apart (.inl hkeeps.key) hk hkept hne) hkept
    · intro names haside hne hdir
      by_cases hway : names = leafNames (digest key) ∨ names = [topName (digest key)]
      · exact hpruned.filled hdir hway
      · rw [not_or] at hway
        have hu := hpruned.found hdir
        have hv := hu
        rw [hset.same (hset.not_cleared hu)] at hv
        obtain ⟨x, hx⟩ := h.filled names haside hne hv
        refine ⟨x, ?_⟩
        rw [hpruned.same, hset.same]
        · exact hx
        · intro extension _ heq
          exact hway.1 (List.append_inj_left' heq rfl)
        · exact fun heq => hway.2 (eq_of_concat_eq_leafNames heq)
        · exact fun heq => hne (List.append_eq_singleton_iff.mp heq |>.elim And.left nofun)

end Removes

/-! ## The ledger apart -/

/-- What lies in the ledger is of no account. -/
theorem Neat.beside (h : Neat v g) (hsame : ∀ names, Aside names → w names = v names) :
    Neat w g where
  toKeysHold := h.toKeysHold.beside hsame
  file := by
    intro names node haside hnode hfile
    rw [hsame names haside] at hnode
    obtain ⟨k, s, n, extension, rfl, hext, hk, hkept⟩ := h.file names node haside hnode hfile
    have hslots : slotsAt w (digest k) = slotsAt v (digest k) :=
      funext fun x => hsame _ (aside_leafNames _ [x])
    exact ⟨k, s, n, extension, rfl, hext, hk, hslots ▸ hkept⟩
  filled := by
    intro names haside hne hdir
    rw [hsame names haside] at hdir
    obtain ⟨x, hx⟩ := h.filled names haside hne hdir
    refine ⟨x, ?_⟩
    rw [hsame]
    · exact hx
    · cases names with
      | nil => exact absurd rfl hne
      | cons y rest =>
        intro hpre
        have hfirst := (List.cons_prefix_cons.mp hpre).1
        exact haside (List.cons_prefix_cons.mpr ⟨hfirst, List.nil_prefix⟩)

theorem apart_ledger {names : Path} (hne : names ≠ []) (h : Aside names) :
    Apart [ledgerName] names where
  aside := by
    intro hpre
    rcases List.prefix_cons_iff.mp hpre with rfl | ⟨rest, rfl, hrest⟩
    · exact hne rfl
    · exact h (by rw [List.prefix_nil.mp hrest])
  outside := h

theorem bind_eq_ok {α β : Type} {x : Except StateError α} {f : α → Except StateError β} {b : β}
    (h : x.bind f = .ok b) : ∃ a, x = .ok a ∧ f a = .ok b := by
  cases x with
  | error e => cases h
  | ok a => exact ⟨a, rfl, h⟩

/-- A topic is found in one of the directories looked at. -/
theorem mem_of_findTopic {topic : String} {next : Nat} {dirs : List Location} {d : Location}
    (h : findTopic t topic next dirs = .ok (.inl d)) : d ∈ dirs := by
  induction dirs generalizing next with
  | nil => cases h
  | cons dir rest ih =>
    rw [findTopic] at h
    split at h
    · split at h
      · cases h
      · split at h
        · cases h
          exact List.mem_cons_self
        · exact List.mem_cons_of_mem _ (ih h)
    · exact List.mem_cons_of_mem _ (ih h)

/-- Whatever an entry in the ledger comes to, it keeps to the ledger. -/
theorem planAdvance_within {place : Path} (h : t.Rooted root.path place)
    (hplain : ∀ names, (t.node? (place ++ names)).isSome → Plain names) (p : Position) :
    ∀ step ∈ (planAdvance t root p).steps, step.Within root.path [ledgerName] := by
  have hgroup : (group root p.topic).path =
      root.path ++ [ledgerName, digest (Utf8.encode p.topic)] := by
    rw [group, Location.path_join, ledgerRoot_path, List.append_assoc, List.singleton_append]
  have hnames : Plain [ledgerName, digest (Utf8.encode p.topic)] :=
    plain_append plain_ledger (plain_digest _)
  have hinside : ∀ rest, [ledgerName] <+: ledgerName :: rest := fun rest => ⟨rest, rfl⟩
  have hmade := h.planDirectory_within hgroup hnames (.inl (hinside _))
  have hspares := Spares.perform h hmade
  have hwrite : ∀ {l : Location} {x : String} (y : String) (data : Bytes), x ≠ ".." → y ≠ ".." →
      l = (group root p.topic).join x →
      FileTree.Step.Within root.path [ledgerName] (.write (l.join y) data) := by
    rintro l x y data hx hy rfl
    refine .write (join_path (join_path hgroup x) y) (by simp)
      (plain_append (plain_append hnames hx) hy) fun hapart => hapart.outside ⟨_, rfl⟩
  simp only [planAdvance]
  split
  · exact hmade
  · split
    · exact hmade
    · next found hfound =>
      obtain ⟨dirs, hsub, hfind⟩ := bind_eq_ok hfound
      obtain ⟨x, names, rfl, hlist, hx, -⟩ := mem_subdirectories hsub (mem_of_findTopic hfind)
      rw [hgroup] at hlist
      obtain ⟨-, rfl⟩ := hspares.rooted.of_list hnames hlist
      rw [hspares.rooted.wellFormed.mem_namesAt, List.append_assoc] at hx
      have hthere := (hspares.plain _ hx).elim id (hplain _)
      intro step hstep
      rcases List.mem_append.mp hstep with hstep | hstep
      · exact hmade step hstep
      · rw [List.mem_singleton.mp hstep]
        exact hwrite _ _ (hthere x (by simp)) (partitionName_plain _) rfl
    · next number hnumber =>
      have hfresh := hspares.rooted.planDirectory_within (join_path hgroup (Decimal.ofNat number))
        (plain_append hnames (ofNat_plain number)) (.inl (hinside _))
      split
      · intro step hstep
        exact (List.mem_append.mp hstep).elim (hmade step) (hfresh step)
      · intro step hstep
        rw [List.mem_append, List.mem_append, List.mem_cons, List.mem_singleton] at hstep
        rcases hstep with (hstep | hstep) | rfl | rfl
        · exact hmade step hstep
        · exact hfresh step hstep
        · exact hwrite topicFileName _ (ofNat_plain number) (by decide) rfl
        · exact hwrite _ _ (ofNat_plain number) (partitionName_plain _) rfl

/-! ## Calls -/

/-- A tree as calls have left it. Its slots are those of the live keys, and each number was needed
when it was given. -/
structure Arranged (t : FileTree) (root : Location) (calls : List StoreCall)
    (v : Path → Option Node) : Prop where
  shows : t.Shows root.path v
  neat : Neat v (Contents.afterAll {} calls).get?
  plain : ∀ names, (v names).isSome → Plain names
  numbers : ∀ d n, (slotsAt v d (Slot.name n Slot.keyExtension)).isSome →
    Contents.Exceeds calls d n

/-- What a call changes. A new key takes the lowest slot that is free, keys leave the ledger alone,
and the ledger leaves everything else alone. -/
inductive Changes (m : Contents) (v w : Path → Option Node) : StoreCall → Prop where
  | put {key value : Bytes} {correlation : String} :
      (m.get? key = none → ∃ n, slotsAt v (digest key) (Slot.name n Slot.keyExtension) = none ∧
        (∀ k < n, (slotsAt v (digest key) (Slot.name k Slot.keyExtension)).isSome) ∧
        Slot.Keeps (slotsAt w (digest key)) n key ⟨value, correlation⟩) →
      (∀ rest, w (ledgerName :: rest) = v (ledgerName :: rest)) →
      Changes m v w (.put key value correlation)
  | remove {key : Bytes} : (∀ rest, w (ledgerName :: rest) = v (ledgerName :: rest)) →
      Changes m v w (.remove key)
  | advance {p} : (∀ names, Aside names → w names = v names) → Changes m v w (.advance p)
  | get {key : Bytes} : w = v → Changes m v w (.get key)
  | ledger : w = v → Changes m v w .ledger

variable {calls : List StoreCall}

namespace Arranged

/-- A call that leaves the live keys and their slots as they are. -/
theorem unchanged {s : FileTree} (h : Arranged t root calls v) {c : StoreCall}
    (hget : ((Contents.afterAll {} calls).after c).get? = (Contents.afterAll {} calls).get?)
    (hs : s.Shows root.path w) (hsame : ∀ names, Aside names → w names = v names)
    (hplain : ∀ names, (w names).isSome → Plain names) : Arranged s root (calls ++ [c]) w where
  shows := hs
  neat := by
    rw [Contents.afterAll_concat, hget]
    exact h.neat.beside hsame
  plain := hplain
  numbers := by
    intro d n hn
    rw [slotsAt, hsame _ (aside_leafNames d _)] at hn
    exact (h.numbers d n hn).concat c

theorem advance (h : Arranged t root calls v) (p : Position) :
    ∃ w, Arranged (t.carryOut (planAdvance t root p)).2 root (calls ++ [.advance p]) w ∧
      ∀ names, Aside names → w names = v names := by
  obtain ⟨place, hat⟩ := h.shows
  have hplain : ∀ names, (t.node? (place ++ names)).isSome → Plain names := by
    intro names hsome
    rw [hat.view] at hsome
    exact h.plain names hsome
  have hspares := Spares.carryOut hat.rooted (planAdvance_within hat.rooted hplain p)
  have hsame : ∀ names, Aside names →
      (t.carryOut (planAdvance t root p)).2.node? (place ++ names) = v names := by
    intro names haside
    by_cases hne : names = []
    · rw [hne, List.append_nil, hspares.rooted.directory, h.shows.root]
    · rw [hspares.found names (apart_ledger hne haside), hat.view]
  refine ⟨_, h.unchanged rfl ⟨place, hspares.rooted.shows⟩ hsame fun names hsome => ?_, hsame⟩
  exact (hspares.plain names hsome).elim id (hplain names)

theorem put (h : Arranged t root calls v) (key value : Bytes) (correlation : String)
    (hroom : ((Contents.afterAll {} (calls ++ [.put key value correlation])).keysIn
      (digest key)).card < 2 ^ 32) :
    ∃ w, Arranged (t.carryOut (planPut t root key value correlation)).2 root
        (calls ++ [.put key value correlation]) w ∧
      Changes (Contents.afterAll {} calls) v w (.put key value correlation) := by
  rw [Contents.afterAll_concat] at hroom
  generalize hm : Contents.afterAll {} calls = m at hroom
  have hneat := h.neat
  rw [hm] at hneat
  have hcard : (m.keysIn (digest key)).card ≤ Decimal.maxU32 := by
    have := Finset.card_le_card (m.keysIn_subset_put key ⟨value, correlation⟩ (digest key))
    have : ((m.put key ⟨value, correlation⟩).keysIn (digest key)).card < 2 ^ 32 := hroom
    simp only [Decimal.maxU32]
    omega
  have hlive : ∀ k, digest k = digest key → (m.get? k).isSome → k ∈ m.keysIn (digest key) :=
    fun k hk hlive => Contents.mem_keysIn.mpr ⟨hlive, hk⟩
  obtain ⟨s, w, n, hmade, hpasses, hs, hstores⟩ := put_passes (R := fun _ => True) h.shows
    hneat.toKeysHold value correlation ⟨_, hcard, hlive⟩ trivial (fun _ _ => trivial) trivial
  rw [hpasses.carryOut hmade]
  refine ⟨w, ⟨hs, ?_, ?_, ?_⟩, .put ?_ hstores.ledger⟩
  · rw [Contents.afterAll_concat, hm, Contents.after, Contents.get?_put_eq_update]
    exact hstores.neat hneat
  · exact fun names => hstores.plain h.plain
  · intro d k hk
    rcases hstores.number hk with ⟨rfl, rfl⟩ | hthere
    · cases hstores.takes with
      | held _ hkeeps => exact (h.numbers _ _ (hkeeps.isSome (by simp [Slot.extensions]))).concat _
      | lowest hnew =>
        apply Contents.exceeds_now
        rw [Contents.afterAll_concat, hm]
        exact hstores.number_lt hneat.toKeysHold hnew
    · exact (h.numbers d k hthere).concat _
  · intro hnew
    cases hstores.takes with
    | held hstored =>
      rw [hnew] at hstored
      cases hstored
    | lowest _ hfree hlowest => exact ⟨n, hfree, hlowest, hstores.keeps⟩

theorem remove (h : Arranged t root calls v) (key : Bytes) :
    ∃ w, Arranged (t.carryOut (planRemove t root key)).2 root (calls ++ [.remove key]) w ∧
      Changes (Contents.afterAll {} calls) v w (.remove key) := by
  obtain ⟨s, w, hmade, hpasses, hs, hremoves⟩ := remove_passes (R := fun _ => True) h.shows
    h.neat.toKeysHold key trivial trivial
  have hfound : ∀ {names}, (w names).isSome → (v names).isSome := by
    intro names hsome
    obtain ⟨node, hnode⟩ := Option.isSome_iff_exists.mp hsome
    exact Option.isSome_of_eq_some (hremoves.found hnode)
  rw [hpasses.carryOut hmade]
  refine ⟨w, ⟨hs, ?_, fun names hsome => h.plain names (hfound hsome), fun d n hn => ?_⟩,
    .remove hremoves.ledger⟩
  · rw [Contents.afterAll_concat, Contents.after, Contents.get?_remove_eq_update]
    exact hremoves.neat h.neat
  · exact (h.numbers d n (hfound hn)).concat _

theorem of_empty (hwell : t.WellFormed) (hempty : t.isEmptyDirectory root.path = true) :
    ∃ v, Arranged t root [] v := by
  refine ⟨_, .of_empty hwell hempty, ⟨keysHold_empty, ?_, ?_⟩, ?_, ?_⟩
  · intro names node _ hnode hfile
    split at hnode
    · exact absurd (Option.some.inj hnode).symm hfile
    · cases hnode
  · intro names _ hne hdir
    rw [if_neg hne] at hdir
    cases hdir
  · intro names hsome
    split at hsome
    · next hnil =>
      rw [hnil]
      nofun
    · cases hsome
  · intro d n hn
    simp [slotsAt] at hn

end Arranged

/-- The tree of a store after some calls. Each live key has one slot, in the directory of its
digest, and the slots of a directory hold different keys. Outside of the ledger there is no other
file and no empty directory, and no slot has a greater number than there were other keys at one
time. -/
structure Layout (v : Path → Option Node) (calls : List StoreCall) : Prop where
  slot : ∀ key stored, (Contents.afterAll {} calls).get? key = some stored →
    ∃ n, Slot.Keeps (slotsAt v (digest key)) n key stored ∧
      ∀ d m, slotsAt v d (Slot.name m Slot.keyExtension) = some (.file (.bytes key)) →
        d = digest key ∧ m = n
  distinct : ∀ d m n key, slotsAt v d (Slot.name m Slot.keyExtension) = some (.file (.bytes key)) →
    slotsAt v d (Slot.name n Slot.keyExtension) = some (.file (.bytes key)) → m = n
  file : ∀ names node, Aside names → v names = some node → node ≠ .directory →
    ∃ key stored n extension, names = leafNames (digest key) ++ [Slot.name n extension] ∧
      extension ∈ Slot.extensions ∧ (Contents.afterAll {} calls).get? key = some stored ∧
      Slot.Keeps (slotsAt v (digest key)) n key stored
  filled : ∀ names, Aside names → names ≠ [] → v names = some .directory →
    ∃ x, (v (names ++ [x])).isSome
  numbers : ∀ d n, (slotsAt v d (Slot.name n Slot.keyExtension)).isSome →
    Contents.Exceeds calls d n

theorem Arranged.layout (h : Arranged t root calls v) : Layout v calls where
  slot := by
    intro key stored hkey
    obtain ⟨n, -, hkept⟩ := (h.neat.slots (digest key)).held key stored ((if_pos rfl).trans hkey)
    refine ⟨n, hkept, fun d m hm => ?_⟩
    obtain ⟨rfl, hunique⟩ := h.neat.slot_unique hm
    exact ⟨rfl, hunique n stored hkept⟩
  distinct := fun d m n key => (h.neat.slots d).once m n key
  file := h.neat.file
  filled := h.neat.filled
  numbers := h.numbers

end Disk

namespace StateStore

open Disk (Arranged Changes Layout)

variable {s s' : StateStore} {files files' : FileTree} {root : Location} {calls : List StoreCall}
  {v : Path → Option Node}

theorem call_arranged (hs : s.backing = .disk root) (h : Arranged files root calls v)
    {c : StoreCall} {a : StoreAnswer}
    (hroom : ∀ d, ((Contents.afterAll {} (calls ++ [c])).keysIn d).card < 2 ^ 32)
    (hcall : s.call files c = (.ok a, s', files')) :
    s' = s ∧ ∃ w, Arranged files' root (calls ++ [c]) w ∧
      Changes (Contents.afterAll {} calls) v w c := by
  cases c with
  | put key value correlation =>
    simp only [call, StateStore.put, hs, Prod.mk.injEq] at hcall
    obtain ⟨-, rfl, rfl⟩ := hcall
    exact ⟨rfl, h.put key value correlation (hroom _)⟩
  | remove key =>
    simp only [call, StateStore.remove, hs, Prod.mk.injEq] at hcall
    obtain ⟨-, rfl, rfl⟩ := hcall
    exact ⟨rfl, h.remove key⟩
  | get key =>
    simp only [call, Prod.mk.injEq] at hcall
    obtain ⟨-, rfl, rfl⟩ := hcall
    exact ⟨rfl, v, h.unchanged rfl h.shows (fun _ _ => rfl) h.plain, .get rfl⟩
  | advance p =>
    simp only [call, StateStore.advance, hs, Prod.mk.injEq] at hcall
    obtain ⟨-, rfl, rfl⟩ := hcall
    obtain ⟨w, hw, hsame⟩ := h.advance p
    exact ⟨rfl, w, hw, .advance hsame⟩
  | ledger =>
    simp only [call, Prod.mk.injEq] at hcall
    obtain ⟨-, rfl, rfl⟩ := hcall
    exact ⟨rfl, v, h.unchanged rfl h.shows (fun _ _ => rfl) h.plain, .ledger rfl⟩

theorem run_arranged {events : List StoreEvent} {answers : List StoreAnswer}
    (hs : s.backing = .disk root) (hroot : root.below = []) (h : Arranged files root calls v)
    (hroom : ∀ i d, ((Contents.afterAll {}
      ((calls ++ StoreEvent.calls events).take i)).keysIn d).card < 2 ^ 32)
    (hrun : s.run files events = .ok (answers, s', files')) :
    s'.backing = .disk root ∧ ∃ w, Arranged files' root (calls ++ StoreEvent.calls events) w := by
  induction events generalizing s files calls v answers with
  | nil =>
    simp only [run, Except.ok.injEq, Prod.mk.injEq] at hrun
    obtain ⟨-, rfl, rfl⟩ := hrun
    exact ⟨hs, v, by simpa [StoreEvent.calls] using h⟩
  | cons event rest ih =>
    cases event with
    | call c =>
      have hcalls : calls ++ StoreEvent.calls (.call c :: rest) =
          (calls ++ [c]) ++ StoreEvent.calls rest := by
        rw [List.append_assoc]
        rfl
      rw [hcalls] at hroom ⊢
      rw [run] at hrun
      split at hrun
      · cases hrun
      · next a t files'' hcall =>
        obtain ⟨⟨answers', _, _⟩, hrest, heq⟩ := Decimal.map_eq_ok hrun
        cases heq
        obtain ⟨rfl, w, hw, -⟩ := call_arranged hs h (fun d => by
          have := hroom (calls ++ [c]).length d
          rwa [List.take_left] at this) hcall
        exact ih hs hw hroom hrest
    | relist r =>
      have h' : Arranged (r.order files) root calls v := { h with shows := h.shows.perm (r.perm _) }
      exact ih hs h' hroom hrun
    | reopen =>
      obtain ⟨base, below⟩ := root
      obtain rfl : below = [] := hroot
      rw [run, reopen, hs] at hrun
      simp only [openDisk, Disk.planOpen, h.shows.planDirectory_root rfl] at hrun
      exact ih rfl h hroom hrun

/-- However a store on an empty directory is called, closed and opened again, its tree has this
layout, and every further call changes what it is to change alone. -/
theorem run_layout {events : List StoreEvent} {answers : List StoreAnswer}
    (hs : s.backing = .disk root) (hfresh : s.Fresh files)
    (hroom : ∀ i d, ((Contents.afterAll {}
      ((StoreEvent.calls events).take i)).keysIn d).card < 2 ^ 32)
    (hrun : s.run files events = .ok (answers, s', files')) :
    ∃ v, files'.Shows root.path v ∧ Layout v (StoreEvent.calls events) ∧
      ∀ c a t files'', s'.call files' c = (.ok a, t, files'') →
        (∀ d, ((Contents.afterAll {} (StoreEvent.calls events ++ [c])).keysIn d).card < 2 ^ 32) →
        ∃ w, files''.Shows root.path w ∧
          Changes (Contents.afterAll {} (StoreEvent.calls events)) v w c := by
  rw [Fresh, hs] at hfresh
  obtain ⟨hroot, hwell, hempty⟩ := hfresh
  obtain ⟨v, hv⟩ := Arranged.of_empty hwell hempty
  obtain ⟨hs', w, hw⟩ := run_arranged hs hroot hv hroom hrun
  refine ⟨w, hw.shows, hw.layout, fun c a t files'' hcall hcard => ?_⟩
  obtain ⟨-, u, hu, hchanges⟩ := call_arranged hs' hw hcard hcall
  exact ⟨u, hu.shows, hchanges⟩

/-- A key that is stored, removed and stored again, with an entry in the ledger. -/
theorem run_layout_restored : ∃ answers s' files' v,
    run { backing := .disk ⟨"", []⟩ } [] [.call (.put [1] [] "c"), .call (.advance ⟨"t", 0, 7⟩),
      .call (.remove [1]), .reopen, .call (.put [1] [2] "d")] = .ok (answers, s', files') ∧
    files'.Shows [] v ∧ Layout v [.put [1] [] "c", .advance ⟨"t", 0, 7⟩, .remove [1],
      .put [1] [2] "d"] := by
  have hfresh : Fresh { backing := .disk ⟨"", []⟩ } [] := ⟨rfl, FileTree.wellFormed_nil, by
    simp [FileTree.isEmptyDirectory, FileTree.list, FileTree.place, Location.path,
      Path.ofText_empty, FileTree.walk, FileTree.namesAt]⟩
  let events : List StoreEvent := [.call (.put [1] [] "c"), .call (.advance ⟨"t", 0, 7⟩),
    .call (.remove [1]), .reopen, .call (.put [1] [2] "d")]
  have hroomy : ∀ i, (Contents.afterAll {} ((StoreEvent.calls events).take i)).Roomy :=
    Contents.roomy_of_length (by decide)
  have hranges : ∀ c ∈ StoreEvent.calls events, c.InRange := by
    simp only [events, StoreEvent.calls, List.filterMap_cons, List.filterMap_nil, List.mem_cons,
      List.not_mem_nil, or_false, forall_eq_or_imp, forall_eq, StoreCall.InRange]
    decide
  obtain ⟨answers, s', files', hok, -⟩ := hfresh.holds.run hfresh.root events fun i _ =>
    ⟨hroomy i, Contents.fits_empty.ranges.afterAll fun c hc => hranges c (List.mem_of_mem_take hc)⟩
  obtain ⟨v, hshows, hlayout, -⟩ := run_layout rfl hfresh (fun i => (hroomy i).keys) hok
  exact ⟨answers, s', files', v, hok, hshows, hlayout⟩

end StateStore

end KeyedLog
