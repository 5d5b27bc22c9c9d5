import KeyedLog.Proofs.Store.Alike
import KeyedLog.Store.Basic
import Mathlib

/-!
# Storing in a damaged tree

Whatever files and directories lie below the root of a store, a value that was stored can be looked
up, and neither the other keys nor the ledger read differently from before, also if storing it
failed.
-/
namespace KeyedLog

namespace Disk

open FileTree (Plain Apart Step)
open Function (update)

variable {t s u : FileTree} {path dir : Path} {v w : Path → Option Node} {l root : Location}
  {key k value : Bytes} {correlation : String} {n m : Nat} {slots before after : List Nat}

/-! ## Where the steps lie -/

theorem apart_leafNames {d e : String} (h : d ≠ e) : Apart (leafNames d) (leafNames e) := by
  have hlength : (leafNames e).length = (leafNames d).length := rfl
  constructor
  · intro hpre
    exact h (leafNames_inj (hpre.eq_of_length hlength).symm)
  · intro hpre
    exact h (leafNames_inj (hpre.eq_of_length hlength.symm))

/-- The steps of writing files of a slot, given by their extensions and what they are to hold. -/
def writes (l : Location) (n : Nat) (files : List (String × Bytes)) : List Step :=
  files.map fun f => .write (Slot.file l n f.1) f.2

/-- The files a value is kept in. -/
def valueFiles (value : Bytes) (correlation : String) : List (String × Bytes) :=
  [(Slot.valueExtension, value), (Slot.correlationExtension, Utf8.encode correlation)]

theorem overwrite_eq : overwrite l n value correlation =
    writes l n (valueFiles value correlation) := rfl

theorem create_eq : create l n key value correlation =
    writes l n (valueFiles value correlation ++ [(Slot.keyExtension, key)]) := rfl

/-- The slot that a value is written to, and the files of it that are written. -/
inductive Target (t : FileTree) (l : Location) (key value : Bytes) (correlation : String)
    (slots : List Nat) : Nat → List (String × Bytes) → Prop where
  | held {n : Nat} : Slot.find t l key slots = .ok (some n) →
      Target t l key value correlation slots n (valueFiles value correlation)
  | free : Slot.find t l key slots = .ok none →
      Target t l key value correlation slots (Slot.lowestFree slots)
        (valueFiles value correlation ++ [(Slot.keyExtension, key)])

namespace Target

variable {files : List (String × Bytes)}

theorem extensions (h : Target t l key value correlation slots n files) :
    ∀ f ∈ files, f.1 ∈ Slot.extensions := by
  cases h <;> simp [valueFiles, Slot.extensions]

theorem nodup (h : Target t l key value correlation slots n files) :
    (files.map Prod.fst).Nodup := by
  cases h <;> simp [valueFiles, Slot.valueExtension, Slot.correlationExtension, Slot.keyExtension]

theorem mem_value (h : Target t l key value correlation slots n files) :
    (Slot.valueExtension, value) ∈ files := by
  cases h <;> simp [valueFiles]

theorem mem_correlation (h : Target t l key value correlation slots n files) :
    (Slot.correlationExtension, Utf8.encode correlation) ∈ files := by
  cases h <;> simp [valueFiles]

end Target

/-- What storing a value comes to: files of one slot are written, if nothing is wrong with the
directory and its slots. -/
theorem planPut_target (key value : Bytes) (correlation : String)
    (hu : (t.perform (t.planDirectory (leaf root key)).steps).2 = u) :
    (∃ e, planPut t root key value correlation =
      { t.planDirectory (leaf root key) with failure := some e }) ∨
    ∃ slots n files, Slot.scan u (leaf root key) = .ok slots ∧
      Target u (leaf root key) key value correlation slots n files ∧
      planPut t root key value correlation =
        { steps := (t.planDirectory (leaf root key)).steps ++ writes (leaf root key) n files } := by
  simp only [planPut, hu]
  cases hmade : (t.planDirectory (leaf root key)).failure with
  | some e => exact .inl ⟨e, by simp only [← hmade]⟩
  | none =>
    cases hscan : Slot.scan u (leaf root key) with
    | error e => exact .inl ⟨e, rfl⟩
    | ok slots =>
      cases hfind : Slot.find u (leaf root key) key slots with
      | error e => exact .inl ⟨e, by simp only [hfind]⟩
      | ok found =>
        cases found with
        | some n =>
          refine .inr ⟨slots, n, _, rfl, .held hfind, ?_⟩
          simp only [hfind, overwrite_eq]
        | none =>
          refine .inr ⟨slots, _, _, rfl, .free hfind, ?_⟩
          simp only [hfind, create_eq]

/-- Whatever storing a value comes to, it keeps to the directory of the digest. -/
theorem planPut_within {place : Path} (h : t.Rooted root.path place) (key value : Bytes)
    (correlation : String) : ∀ step ∈ (planPut t root key value correlation).steps,
      step.Within root.path (leafNames (digest key)) := by
  have hmade := h.planDirectory_within (leaf_path root key) (plain_leafNames key)
    (.inl (List.prefix_refl _))
  rcases planPut_target key value correlation rfl with
    ⟨e, hplan⟩ | ⟨_, n, files, -, htarget, hplan⟩
  · rw [hplan]
    exact hmade
  · rw [hplan]
    intro step hstep
    rcases List.mem_append.mp hstep with hstep | hstep
    · exact hmade step hstep
    · obtain ⟨f, hf, rfl⟩ := List.mem_map.mp hstep
      have hext := htarget.extensions f hf
      have hl : (Slot.file (leaf root key) n f.1).path =
          root.path ++ (leafNames (digest key) ++ [Slot.name n f.1]) := by
        rw [Slot.file_path, leaf_path, List.append_assoc]
      refine .write hl (by simp) (Slot.plain_name (plain_leafNames key) (Slot.dotless_of_mem hext)
        (Slot.ne_empty_of_mem hext)) ?_
      exact fun hapart => hapart.outside (List.prefix_append _ _)

/-! ## Writing as far as it goes -/

/-- A view after files of a slot were written, up to the first that failed. -/
structure Written (v w : Path → Option Node) (dir : Path) (n : Nat) (files : List (String × Bytes))
    (failure : Option StateError) : Prop where
  extensions : ∀ f ∈ files, f.1 ∈ Slot.extensions
  others : ∀ names, (∀ f ∈ files, names ≠ dir ++ [Slot.name n f.1]) → w names = v names
  either : ∀ f ∈ files, w (dir ++ [Slot.name n f.1]) = v (dir ++ [Slot.name n f.1]) ∨
    w (dir ++ [Slot.name n f.1]) = some (.file (.bytes f.2))
  all : failure = none → ∀ f ∈ files, w (dir ++ [Slot.name n f.1]) = some (.file (.bytes f.2))

/-- A file of a slot is written, or a directory is in its place. -/
theorem write_either (ht : t.Shows path v) (hl : l.path = path ++ dir) (hdir : Plain dir)
    (hthere : v dir = some .directory) {extension : String} (hext : extension ∈ Slot.extensions)
    (data : Bytes) :
    (∃ e, t.apply (.write (Slot.file l n extension) data) = .error e) ∨
      ∃ s, t.apply (.write (Slot.file l n extension) data) = .ok s ∧
        s.Shows path (update v (dir ++ [Slot.name n extension]) (some (.file (.bytes data)))) := by
  have hdotless := Slot.dotless_of_mem hext
  have hne := Slot.ne_empty_of_mem hext
  by_cases hfree : v (dir ++ [Slot.name n extension]) = some .directory
  · obtain ⟨place, hat⟩ := ht
    have hparent : v (dir ++ [Slot.name n extension]).dropLast = some .directory := by
      rw [List.dropLast_concat, hthere]
    have hwalk := hat.walk (Slot.plain_name hdir hdotless hne) (by simp) hparent true
    rw [← hat.view] at hfree
    refine .inl ⟨.isDirectory, ?_⟩
    simp only [FileTree.apply, FileTree.write, FileTree.writeContent, FileTree.place,
      Slot.file_path, hl, List.append_assoc, hwalk, if_pos hfree]
  · exact .inr (write_ok ht hl hdir hthere hdotless hne hfree data)

namespace Written

variable {files : List (String × Bytes)} {failure : Option StateError}

/-- Nothing was written. -/
theorem refl (v : Path → Option Node) (dir : Path) (n : Nat)
    (hext : ∀ f ∈ files, f.1 ∈ Slot.extensions) (hfiles : failure = none → files = []) :
    Written v v dir n files failure where
  extensions := hext
  others := fun _ _ => rfl
  either := fun _ _ => .inl rfl
  all := by
    intro hnone
    simp [hfiles hnone]

/-- One file was written before the others. -/
theorem cons {f : String × Bytes} (hf : f.1 ∈ Slot.extensions) (hnew : f.1 ∉ files.map Prod.fst)
    (h : Written (update v (dir ++ [Slot.name n f.1]) (some (.file (.bytes f.2)))) w dir n files
      failure) : Written v w dir n (f :: files) failure := by
  have hfirst : ∀ g ∈ files, dir ++ [Slot.name n g.1] ≠ dir ++ [Slot.name n f.1] := by
    intro g hg heq
    have hsame := Slot.name_inj_below (Slot.dotless_of_mem (h.extensions g hg))
      (Slot.dotless_of_mem hf) heq
    exact hnew (hsame.2 ▸ List.mem_map_of_mem hg)
  have hhead : w (dir ++ [Slot.name n f.1]) = some (.file (.bytes f.2)) := by
    rw [h.others _ fun g hg => (hfirst g hg).symm, Function.update_self]
  constructor
  · exact List.forall_mem_cons.mpr ⟨hf, h.extensions⟩
  · intro names hnames
    rw [h.others names fun g hg => hnames g (List.mem_cons_of_mem _ hg),
      Function.update_of_ne (hnames f List.mem_cons_self)]
  · refine List.forall_mem_cons.mpr ⟨.inr hhead, fun g hg => ?_⟩
    rw [← Function.update_of_ne (hfirst g hg) (some (.file (.bytes f.2))) v]
    exact h.either g hg
  · exact fun hnone => List.forall_mem_cons.mpr ⟨hhead, h.all hnone⟩

end Written

theorem perform_writes (ht : t.Shows path v) (hl : l.path = path ++ dir) (hdir : Plain dir)
    (hthere : v dir = some .directory) {files : List (String × Bytes)}
    (hext : ∀ f ∈ files, f.1 ∈ Slot.extensions) (hnodup : (files.map Prod.fst).Nodup) :
    ∃ w, (t.perform (writes l n files)).2.Shows path w ∧
      Written v w dir n files (t.perform (writes l n files)).1 := by
  induction files generalizing t v with
  | nil => exact ⟨v, ht, .refl v dir n hext fun _ => rfl⟩
  | cons f rest ih =>
    obtain ⟨hf, hrest⟩ := List.forall_mem_cons.mp hext
    rw [List.map_cons, List.nodup_cons] at hnodup
    rw [writes, List.map_cons, FileTree.perform]
    rcases write_either (n := n) ht hl hdir hthere hf f.2 with ⟨e, happly⟩ | ⟨s, happly, hs⟩
    · rw [happly]
      exact ⟨v, ht, .refl v dir n hext (by simp)⟩
    · rw [happly]
      have hthere' : update v (dir ++ [Slot.name n f.1]) (some (.file (.bytes f.2))) dir =
          some .directory := by
        rw [Function.update_of_ne (by simp), hthere]
      obtain ⟨w, hw, hwritten⟩ := ih hs hthere' hrest hnodup.2
      exact ⟨w, hw, hwritten.cons hf hnodup.1⟩

/-! ## The slots after that -/

/-- Slots in order, with one that holds a key among them or without it. -/
def Around (t : FileTree) (l : Location) (key : Bytes) (n : Nat) (before after slots : List Nat) :
    Prop :=
  slots = before ++ after ∨
    slots = before ++ n :: after ∧ Slot.readAt t (Slot.file l n Slot.keyExtension) = .ok key

/-- The slots before and after the files of one were written for a key, as far as that went. The
others are the same. -/
structure Aligned (t s : FileTree) (l : Location) (key : Bytes) (n : Nat)
    (failure : Option StateError) (slots found before after : List Nat) : Prop where
  scanned : Slot.scan s l = .ok found
  others : ∀ m ∈ before, Slot.Other t l key m
  alike : ∀ m ∈ before ++ after, ∀ k, Slot.Alike t s l k m
  first : Around t l key n before after slots
  second : Around s l key n before after found
  written : failure = none → found = before ++ n :: after ∧
    Slot.readAt s (Slot.file l n Slot.keyExtension) = .ok key

theorem Around.retrieveFrom (h : Around t l key n before after slots) (hne : k ≠ key) :
    retrieveFrom t l k slots = retrieveFrom t l k (before ++ after) := by
  rcases h with rfl | ⟨rfl, hread⟩
  · rfl
  · exact retrieveFrom_skip ⟨key, hread, hne.symm⟩ before after

namespace Aligned

variable {failure : Option StateError} {found : List Nat}

/-- A search for another key comes to the same. -/
theorem retrieveFrom (h : Aligned t s l key n failure slots found before after) (hne : k ≠ key) :
    retrieveFrom s l k found = retrieveFrom t l k slots := by
  rw [h.first.retrieveFrom hne, h.second.retrieveFrom hne]
  exact retrieveFrom_congr fun m hm => h.alike m hm k

/-- The slots before still hold other keys. -/
theorem others_after (h : Aligned t s l key n failure slots found before after) :
    ∀ m ∈ before, Slot.Other s l key m := by
  intro m hm
  obtain ⟨held, hheld, hne⟩ := h.others m hm
  exact ⟨held, (h.alike m (List.mem_append_left _ hm) key).holder.trans hheld, hne⟩

end Aligned

namespace Written

variable {files : List (String × Bytes)} {failure : Option StateError}

theorem of_ne (h : Written v w dir n files failure) (hm : m ≠ n) {extension : String}
    (hext : extension ∈ Slot.extensions) :
    w (dir ++ [Slot.name m extension]) = v (dir ++ [Slot.name m extension]) := by
  apply h.others
  intro f hf heq
  exact hm (Slot.name_inj_below (Slot.dotless_of_mem hext)
    (Slot.dotless_of_mem (h.extensions f hf)) heq).1

theorem directory (h : Written v w dir n files failure) : w dir = v dir :=
  h.others dir (by simp)

theorem numbered (h : Written v w dir n files failure) (hn : n ≤ Decimal.maxU32)
    (hnumbered : ∀ x, (v (dir ++ [x])).isSome → Slot.Numbered x) {x : String}
    (hx : (w (dir ++ [x])).isSome) : Slot.Numbered x := by
  by_cases hfile : ∃ f ∈ files, x = Slot.name n f.1
  · obtain ⟨f, hf, rfl⟩ := hfile
    exact Slot.numbered_name hn (h.extensions f hf)
  · apply hnumbered
    rwa [← h.others]
    intro f hf heq
    rw [List.append_cancel_left_eq, List.cons.injEq] at heq
    exact hfile ⟨f, hf, heq.1⟩

section

variable (h : Written v w dir n files failure) (ht : t.Shows path v) (hs : s.Shows path w)
  (hl : l.path = path ++ dir) (hdir : Plain dir) (hthere : v dir = some .directory)
  (hscan : Slot.scan t l = .ok slots)

include h ht hs hl hdir hthere hscan

theorem scan (hn : n ≤ Decimal.maxU32) {found : List Nat} (hfound : found.Pairwise (· < ·))
    (hmem : ∀ m, m ∈ found ↔
      m ≤ Decimal.maxU32 ∧ (w (dir ++ [Slot.name m Slot.keyExtension])).isSome) :
    Slot.scan s l = .ok found := by
  have hnumbered : ∀ x, (v (dir ++ [x])).isSome → Slot.Numbered x :=
    fun x => Slot.numbered_of_scan ht hl hdir hthere hscan
  obtain ⟨slots', hscan', hslots', hmem'⟩ := Slot.scan_numbered hs hl hdir
    (h.directory.trans hthere) fun x => h.numbered hn hnumbered
  rw [hscan', Slot.eq_of_ascending hslots' hfound fun m => (hmem' m).trans (hmem m).symm]

/-- If the key file is as before, so are the slots. -/
theorem scan_same (hn : n ≤ Decimal.maxU32)
    (hkey : w (dir ++ [Slot.name n Slot.keyExtension]) =
      v (dir ++ [Slot.name n Slot.keyExtension])) : Slot.scan s l = .ok slots := by
  obtain ⟨hslots, hmem⟩ := Slot.of_scan ht hl hdir hthere hscan
  apply h.scan ht hs hl hdir hthere hscan hn hslots
  intro m
  by_cases hm : m = n
  · rw [hmem, hm, hkey]
  · rw [hmem, h.of_ne hm (by simp [Slot.extensions])]

/-- With its key file the slot comes up among the others. -/
theorem scan_new (hn : n ≤ Decimal.maxU32)
    (hkey : (w (dir ++ [Slot.name n Slot.keyExtension])).isSome) :
    Slot.scan s l = .ok (Slot.insert n slots) := by
  obtain ⟨hslots, hmem⟩ := Slot.of_scan ht hl hdir hthere hscan
  apply h.scan ht hs hl hdir hthere hscan hn (Slot.ascending_insert hslots)
  intro m
  by_cases hm : m = n
  · simp only [Slot.mem_insert, hm, hkey, hn, true_or, and_self]
  · rw [Slot.mem_insert, or_iff_right hm, hmem, h.of_ne hm (by simp [Slot.extensions])]

/-- The other slots read alike, whatever is looked for. -/
theorem alike (hm : m ∈ slots) (hne : m ≠ n) (k : Bytes) : Slot.Alike t s l k m := by
  apply Slot.alike_of_same ht hs hl hdir
  · exact fun extension hext => h.of_ne hne hext
  · exact (((Slot.of_scan ht hl hdir hthere hscan).2 m).mp hm).2

/-- The slot held the key before, and its key file is not written. -/
theorem aligned_held (hn : n ≤ Decimal.maxU32) (hfind : Slot.find t l key slots = .ok (some n))
    (hfiles : ∀ f ∈ files, f.1 ≠ Slot.keyExtension) :
    ∃ before after, Aligned t s l key n failure slots slots before after := by
  obtain ⟨hslots, hmem⟩ := Slot.of_scan ht hl hdir hthere hscan
  have hkey : w (dir ++ [Slot.name n Slot.keyExtension]) =
      v (dir ++ [Slot.name n Slot.keyExtension]) := by
    apply h.others
    intro f hf heq
    have hsame := Slot.name_inj_below Slot.dotless_key (Slot.dotless_of_mem (h.extensions f hf)) heq
    exact hfiles f hf hsame.2.symm
  have hscan' := h.scan_same ht hs hl hdir hthere hscan hn hkey
  have halike := fun {m} => h.alike ht hs hl hdir hthere hscan (m := m)
  obtain ⟨before, after, rfl, hbefore, hread⟩ := Slot.of_find_some hfind
  have hread' : Slot.readAt s (Slot.file l n Slot.keyExtension) = .ok key := by
    have hfile : (Slot.file l n Slot.keyExtension).path =
        path ++ (dir ++ [Slot.name n Slot.keyExtension]) := by
      rw [Slot.file_path, hl, List.append_assoc]
    rw [ht.readAt_same hs hfile (Slot.plain_name hdir Slot.dotless_key (by decide)) hkey
      ((hmem n).mp (by simp)).2, hread]
  refine ⟨before, after, hscan', hbefore, fun m hm => ?_, .inr ⟨rfl, hread⟩, .inr ⟨rfl, hread'⟩,
    fun _ => ⟨rfl, hread'⟩⟩
  have hnodup := List.nodup_middle.mp (hslots.imp Nat.ne_of_lt)
  exact halike (List.perm_middle.mem_iff.mpr (List.mem_cons_of_mem _ hm))
    (ne_of_mem_of_not_mem hm (List.nodup_cons.mp hnodup).1)

/-- No slot held the key before, and one that was free comes up with its key file, if at all. -/
theorem aligned_free (hn : n ≤ Decimal.maxU32) (hfind : Slot.find t l key slots = .ok none)
    (hfree : n ∉ slots) (hlast : (Slot.keyExtension, key) ∈ files) :
    ∃ before after found, Aligned t s l key n failure slots found before after := by
  obtain ⟨-, hmem⟩ := Slot.of_scan ht hl hdir hthere hscan
  have hscan' := h.scan_same ht hs hl hdir hthere hscan hn
  have hscan'' := h.scan_new ht hs hl hdir hthere hscan hn
  have halike := fun {m} => h.alike ht hs hl hdir hthere hscan (m := m)
  have hothers := Slot.of_find_none hfind
  obtain ⟨before, after, rfl, hinsert⟩ := Slot.insert_split hfree
  have halike' : ∀ m ∈ before ++ after, ∀ k, Slot.Alike t s l k m :=
    fun m hm => halike hm (ne_of_mem_of_not_mem hm hfree)
  have hbefore : ∀ m ∈ before, Slot.Other t l key m :=
    fun m hm => hothers m (List.mem_append_left _ hm)
  rcases h.either _ hlast with hkey | hkey
  · refine ⟨before, after, _, hscan' hkey, hbefore, halike', .inl rfl, .inl rfl, fun hnone => ?_⟩
    -- a slot with a key file would not have been free
    rw [hmem, ← hkey, h.all hnone _ hlast] at hfree
    exact absurd ⟨hn, rfl⟩ hfree
  · have hread := Slot.readAt_ok hs hl hdir Slot.dotless_key (by decide) hkey
    have hnew := hscan'' (by rw [hkey]; rfl)
    rw [hinsert] at hnew
    exact ⟨before, after, _, hnew, hbefore, halike', .inl rfl, .inr ⟨rfl, hread⟩,
      fun _ => ⟨rfl, hread⟩⟩

end

end Written

/-! ## Looking up after that -/

theorem retrieve_scanned (ht : t.Shows root.path v)
    (hthere : v (leafNames (digest key)) = some .directory)
    (hscan : Slot.scan t (leaf root key) = .ok slots) (hk : digest k = digest key) :
    retrieve t root k = retrieveFrom t (leaf root key) k slots := by
  have hleaf : leaf root k = leaf root key := by rw [leaf, leaf, hk]
  have hdirectory : t.isDirectory (leaf root key).path = true := by
    rw [leaf_path, ht.isDirectory_eq (plain_leafNames key), hthere]
    rfl
  simp only [retrieve, hleaf, hdirectory, if_true, hscan]

section

variable {files : List (String × Bytes)} {failure : Option StateError}

theorem Target.aligned (h : Target t l key value correlation slots n files)
    (hw : Written v w dir n files failure) (ht : t.Shows path v) (hs : s.Shows path w)
    (hl : l.path = path ++ dir) (hdir : Plain dir) (hthere : v dir = some .directory)
    (hscan : Slot.scan t l = .ok slots) (hn : n ≤ Decimal.maxU32) :
    ∃ before after found, Aligned t s l key n failure slots found before after := by
  cases h with
  | held hfind =>
    have hfiles : ∀ f ∈ valueFiles value correlation, f.1 ≠ Slot.keyExtension := by
      simp [valueFiles, Slot.valueExtension, Slot.correlationExtension, Slot.keyExtension]
    obtain ⟨before, after, haligned⟩ :=
      hw.aligned_held ht hs hl hdir hthere hscan hn hfind hfiles
    exact ⟨before, after, slots, haligned⟩
  | free hfind =>
    have hslots := (Slot.of_scan ht hl hdir hthere hscan).1
    exact hw.aligned_free ht hs hl hdir hthere hscan hn hfind (Slot.lowestFree_not_mem hslots)
      (by simp)

theorem Target.le (h : Target t l key value correlation slots n files) (ht : t.Shows path v)
    (hl : l.path = path ++ dir) (hdir : Plain dir) (hthere : v dir = some .directory)
    (hscan : Slot.scan t l = .ok slots)
    (hroom : ∃ n ≤ Decimal.maxU32, v (dir ++ [Slot.name n Slot.keyExtension]) = none) :
    n ≤ Decimal.maxU32 := by
  obtain ⟨-, hmem⟩ := Slot.of_scan ht hl hdir hthere hscan
  cases h with
  | held hfind =>
    obtain ⟨before, after, rfl, -, -⟩ := Slot.of_find_some hfind
    exact ((hmem n).mp (by simp)).1
  | free hfind =>
    obtain ⟨m, hm, hnone⟩ := hroom
    refine le_trans (Nat.not_lt.mp fun hlt => ?_) hm
    have hsome := ((hmem m).mp (Slot.mem_of_lt_lowestFree hlt)).2
    rw [hnone] at hsome
    cases hsome

/-- Once it is written, the value is looked up. -/
theorem Target.retrieveFrom (h : Target t l key value correlation slots n files)
    (hw : Written v w dir n files none) (hs : s.Shows path w) (hl : l.path = path ++ dir)
    (hdir : Plain dir) (hbefore : ∀ m ∈ before, Slot.Other s l key m)
    (hread : Slot.readAt s (Slot.file l n Slot.keyExtension) = .ok key) :
    retrieveFrom s l key (before ++ n :: after) = .ok (some ⟨value, correlation⟩) := by
  have hvalue := hw.all rfl _ h.mem_value
  have hcorrelation := hw.all rfl _ h.mem_correlation
  have hhit := retrieveFrom_hit hbefore hread
    (Slot.readAt_ok hs hl hdir Slot.dotless_value (by decide) hvalue)
    (Slot.readAt_ok hs hl hdir Slot.dotless_correlation (by decide) hcorrelation) after
  rw [hhit, Utf8.lossy_encode]

end

/-! ## Storing -/

/-- Making its directory is of no account for the keys of a digest. -/
theorem retrieve_opened (ht : t.Shows root.path v)
    (hu : u.Shows root.path (FileTree.opened v (leafNames (digest key))))
    (hnone : v (leafNames (digest key)) = none) : retrieve u root key = retrieve t root key := by
  have hl := leaf_path root key
  have hplain := plain_leafNames key
  have hbefore : retrieve t root key = .ok none := by
    have hdirectory : t.isDirectory (leaf root key).path = false := by
      rw [hl, ht.isDirectory_eq hplain, hnone]
      rfl
    simp only [retrieve, hdirectory, Bool.false_eq_true, if_false]
  have hthere := FileTree.opened_above (v := v) (List.prefix_refl (leafNames (digest key)))
  have hempty : ∀ x, FileTree.opened v (leafNames (digest key)) (leafNames (digest key) ++ [x]) =
      none := by
    intro x
    rw [opened_slot, ht.none_below hnone]
  obtain ⟨slots, hscan, -, hmem⟩ := Slot.scan_numbered hu hl hplain hthere (by simp [hempty])
  obtain rfl : slots = [] := List.eq_nil_iff_forall_not_mem.mpr (by simp [hmem, hempty])
  rw [hbefore, retrieve_scanned hu hthere hscan rfl, retrieveFrom]

/-- The directory of a digest comes up if nothing is in the way. -/
theorem made_digest (ht : t.Shows root.path v) (key : Bytes)
    (hclear : FileTree.Clear v (leafNames (digest key))) :
    ∃ u, t.perform (t.planDirectory (leaf root key)).steps = (none, u) ∧
      u.Shows root.path (FileTree.opened v (leafNames (digest key))) ∧
      ∀ k, digest k = digest key → retrieve u root k = retrieve t root k := by
  have hl := leaf_path root key
  have hplain := plain_leafNames key
  obtain ⟨u, -, hpasses, hu⟩ := ht.planDirectory hl hplain hclear (P := fun _ => True)
    fun _ _ _ _ => trivial
  refine ⟨u, hpasses.performs, hu, fun k hk => ?_⟩
  rcases hclear _ (List.prefix_refl _) with hnone | hdirectory
  · rw [← hk] at hu hnone
    exact retrieve_opened ht hu hnone
  · have hsteps := hpasses.performs
    rw [ht.planDirectory_there hl hplain hdirectory, FileTree.perform, Prod.mk.injEq] at hsteps
    rw [hsteps.2]

/-- Writing the files of a value, as far as it goes. -/
theorem perform_target {files : List (String × Bytes)} (ht : t.Shows root.path v)
    (hthere : v (leafNames (digest key)) = some .directory)
    (hscan : Slot.scan t (leaf root key) = .ok slots)
    (htarget : Target t (leaf root key) key value correlation slots n files)
    (hroom : ∃ n ≤ Decimal.maxU32,
      v (leafNames (digest key) ++ [Slot.name n Slot.keyExtension]) = none) :
    ((t.perform (writes (leaf root key) n files)).1 = none →
      retrieve (t.perform (writes (leaf root key) n files)).2 root key =
        .ok (some ⟨value, correlation⟩)) ∧
    ∀ k, digest k = digest key → k ≠ key →
      retrieve (t.perform (writes (leaf root key) n files)).2 root k = retrieve t root k := by
  have hl := leaf_path root key
  have hplain := plain_leafNames key
  have hn := htarget.le ht hl hplain hthere hscan hroom
  obtain ⟨w, hs, hw⟩ :=
    perform_writes (n := n) ht hl hplain hthere htarget.extensions htarget.nodup
  obtain ⟨before, after, found, haligned⟩ := htarget.aligned hw ht hs hl hplain hthere hscan hn
  have hafter := fun {k} =>
    retrieve_scanned (k := k) hs (hw.directory.trans hthere) haligned.scanned
  constructor
  · intro hnone
    obtain ⟨rfl, hread⟩ := haligned.written hnone
    rw [hnone] at hw
    rw [hafter rfl]
    exact htarget.retrieveFrom hw hs hl hplain haligned.others_after hread
  · intro k hk hne
    rw [hafter hk, haligned.retrieveFrom hne, ← retrieve_scanned ht hthere hscan hk]

/-- What storing a value means for the keys that share the digest. -/
theorem put_digest (ht : t.Shows root.path v) (value : Bytes) (correlation : String)
    (hroom : ∃ n ≤ Decimal.maxU32,
      v (leafNames (digest key) ++ [Slot.name n Slot.keyExtension]) = none) :
    ((t.carryOut (planPut t root key value correlation)).1 = .ok () →
      retrieve (t.carryOut (planPut t root key value correlation)).2 root key =
        .ok (some ⟨value, correlation⟩)) ∧
    ∀ k, digest k = digest key → k ≠ key →
      retrieve (t.carryOut (planPut t root key value correlation)).2 root k =
        retrieve t root k := by
  by_cases hclear : FileTree.Clear v (leafNames (digest key))
  · obtain ⟨u, hperform, hu, hopened⟩ := made_digest ht key hclear
    rcases planPut_target key value correlation (congrArg Prod.snd hperform) with
      ⟨e, hplan⟩ | ⟨slots, n, files, hscan, htarget, hplan⟩
    · rw [FileTree.carryOut_snd, hplan, hperform]
      refine ⟨fun hok => ?_, fun k hk _ => hopened k hk⟩
      cases (FileTree.of_carryOut_ok hok).2
    · have hthere := FileTree.opened_above (v := v) (List.prefix_refl (leafNames (digest key)))
      simp only [← opened_slot v] at hroom
      obtain ⟨hown, hothers⟩ := perform_target hu hthere hscan htarget hroom
      rw [FileTree.carryOut_snd, hplan, FileTree.perform_append hperform]
      refine ⟨fun hok => hown ?_, fun k hk hne => (hothers k hk hne).trans (hopened k hk)⟩
      rw [← FileTree.perform_append hperform]
      exact (FileTree.of_carryOut_ok hok).1
  · obtain ⟨e, hmade⟩ := ht.planDirectory_blocked (leaf_path root key) (plain_leafNames key) hclear
    have hplan : planPut t root key value correlation = { failure := some e } := by
      simp only [planPut, hmade]
    rw [FileTree.carryOut_snd, hplan, FileTree.perform]
    refine ⟨fun hok => ?_, fun _ _ _ => rfl⟩
    cases (FileTree.of_carryOut_ok hok).2

end Disk

namespace StateStore

open FileTree (Plain)

variable {s s' : StateStore} {files files' : FileTree} {root : Location}

/-- Whatever files and directories there are below the root, a value that was stored is looked up
from then on. Whether it was stored or not, nothing else is found changed. -/
theorem put_spares {place : Path} {key value : Bytes} {correlation : String}
    {result : Except StateError Unit} (hs : s.backing = .disk root)
    (hrooted : files.Rooted root.path place)
    (hnames : ∀ names, (files.node? (place ++ names)).isSome → Plain names)
    (hroom : ∃ n < 2 ^ 32,
      files.exists? (Slot.file (Disk.leaf root key) n Slot.keyExtension).path = false)
    (hput : s.put files key value correlation = (result, s', files')) :
    (result = .ok () → s'.get? files' key = .ok (some ⟨value, correlation⟩)) ∧
      (∀ k, k ≠ key → s'.get? files' k = s.get? files k) ∧
      s'.ledger files' = s.ledger files := by
  have hshows : files.Shows root.path _ := ⟨place, hrooted.shows⟩
  have hspares := FileTree.Spares.carryOut hrooted
    (Disk.planPut_within hrooted key value correlation)
  have hfree : ∃ n ≤ Decimal.maxU32, files.node?
      (place ++ (Disk.leafNames (digest key) ++ [Slot.name n Slot.keyExtension])) = none := by
    obtain ⟨n, hn, hfree⟩ := hroom
    have hplain := Slot.plain_name (n := n) (Disk.plain_leafNames key) Slot.dotless_key (by decide)
    rw [Slot.file_path, Disk.leaf_path, List.append_assoc, hshows.exists?_eq hplain,
      Option.isSome_eq_false_iff, Option.isNone_iff_eq_none] at hfree
    exact ⟨n, Nat.le_of_lt_succ hn, hfree⟩
  obtain ⟨hown, hdigest⟩ := Disk.put_digest hshows value correlation hfree
  simp only [put, hs, Prod.mk.injEq] at hput
  obtain ⟨rfl, rfl, rfl⟩ := hput
  simp only [get?, ledger, hs]
  refine ⟨hown, fun k hne => ?_, ?_⟩
  · by_cases hk : digest k = digest key
    · exact hdigest k hk hne
    · exact Disk.retrieve_spared hrooted hspares (Disk.apart_leafNames (Ne.symm hk))
  · exact Disk.ledger_spared hrooted hnames hspares
      (FileTree.apart_of_ne (Disk.topName_ne _) _ _)

/-- A key that holds two slots, the first of them without a value. -/
def halved : FileTree :=
  [(["000"], .directory),
   (["000", "000"], .directory),
   (["000", "000", "0.key"], .file (.bytes [])),
   (["000", "000", "1.key"], .file (.bytes [])),
   (["000", "000", "1.value"], .file (.bytes [1]))]

theorem halved_rooted : halved.Rooted [] [] := by
  have habove : ∀ entry ∈ halved,
      entry.1 ≠ [] ∧ halved.node? entry.1.dropLast = some .directory := by decide
  have hwell : halved.WellFormed := ⟨by decide, fun p node hentry => habove (p, node) hentry⟩
  exact hwell.rooted (by simp [halved])

/-- The first slot is the one that is written to, so that the key has its value from there. -/
theorem put_spares_halved : ∃ files',
    put { backing := .disk ⟨"", []⟩ } halved [] [2] "c" =
      (.ok (), { backing := .disk ⟨"", []⟩ }, files') ∧
    get? { backing := .disk ⟨"", []⟩ } files' [] = .ok (some ⟨[2], "c"⟩) ∧
    (∀ k, k ≠ [] → get? { backing := .disk ⟨"", []⟩ } files' k =
      get? { backing := .disk ⟨"", []⟩ } halved k) ∧
    ledger { backing := .disk ⟨"", []⟩ } files' =
      ledger { backing := .disk ⟨"", []⟩ } halved := by
  have hleaf : Disk.leaf ⟨"", []⟩ [] = ⟨"", ["000", "000"]⟩ := by
    have hdigest : digest [] = "000000" := by decide +kernel
    rw [Disk.leaf, hdigest]
    decide
  have hnames : ∀ names, (halved.node? ([] ++ names)).isSome → Plain names := by
    intro names hsome
    by_cases hempty : names = []
    · simp [hempty, Plain]
    · obtain ⟨node, hnode⟩ := Option.isSome_iff_exists.mp hsome
      rw [List.nil_append, FileTree.node?_of_ne hempty] at hnode
      have hplain : ∀ entry ∈ halved, Plain entry.1 := by simp [halved, Plain]
      exact hplain _ (Assoc.mem_of_get? hnode)
  have hroom : halved.exists? (Slot.file ⟨"", ["000", "000"]⟩ 2 Slot.keyExtension).path =
      false := by cbv
  have hmade : halved.planDirectory ⟨"", ["000", "000"]⟩ = {} := by cbv
  have hscan : Slot.scan halved ⟨"", ["000", "000"]⟩ = .ok [0, 1] := by
    have hlist : halved.list (Location.path ⟨"", ["000", "000"]⟩) =
        .ok ["0.key", "1.key", "1.value"] := by cbv
    rw [Slot.scan, hlist]
    decide +kernel
  have hfind : Slot.find halved ⟨"", ["000", "000"]⟩ [] [0, 1] = .ok (some 0) := by
    have hread : halved.read (Slot.file ⟨"", ["000", "000"]⟩ 0 Slot.keyExtension).path =
        .ok [] := by cbv
    simp only [Slot.find, Slot.readAt, hread, Except.mapError, if_true]
  obtain ⟨files', hperform⟩ : ∃ files', halved.perform
      (Disk.overwrite ⟨"", ["000", "000"]⟩ 0 [2] "c") = (none, files') :=
    ⟨_, Prod.ext (by cbv) rfl⟩
  have hput : put { backing := .disk ⟨"", []⟩ } halved [] [2] "c" =
      (.ok (), { backing := .disk ⟨"", []⟩ }, files') := by
    simp only [put, Disk.planPut, hleaf, hmade, FileTree.perform, hscan, hfind, List.nil_append,
      FileTree.carryOut, hperform]
  obtain ⟨hown, hothers⟩ := put_spares rfl halved_rooted hnames
    ⟨2, by decide, by rw [hleaf, hroom]⟩ hput
  exact ⟨files', hput, hown rfl, hothers⟩

end StateStore

end KeyedLog
