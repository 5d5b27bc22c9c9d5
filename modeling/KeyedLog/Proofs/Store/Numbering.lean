import KeyedLog.Proofs.Store.Slot
import KeyedLog.Proofs.Text.Canonical
import Mathlib

/-!
# The numbers of slots

The key files of a directory and its slots stand for each other: each name is read as one number,
no number has two names, and a name that no number has is reported. A new slot takes the least
number that is left, which machine words always reach while any is left.
-/
namespace KeyedLog.Slot

/-! ## Names -/

/-- The name of a key file: the extension, and a stem before it. -/
def KeyFile (x stem : String) : Prop := stem ≠ "" ∧ x = stem ++ ".key"

theorem keyFile_iff {x stem : String} :
    KeyFile x stem ↔ Text.stemAndExtension x = (stem, some keyExtension) := by
  have hname : stem ++ ".key" = stem ++ "." ++ keyExtension := by
    rw [String.append_assoc]
    rfl
  rw [KeyFile, hname]
  constructor
  · rintro ⟨hstem, rfl⟩
    exact Text.stemAndExtension_append hstem dotless_key
  · intro h
    exact ⟨Text.stem_ne_empty h, Text.eq_of_stemAndExtension h⟩

/-- A name is fit for a scan if the stem it has as a key file is the numeral of a slot. -/
theorem numbered_iff {x : String} :
    Numbered x ↔ ∀ stem, KeyFile x stem → Decimal.Canonical Decimal.maxU32 stem := by
  simp only [Numbered, keyFile_iff, Decimal.canonical_iff]
  refine forall_congr' fun stem => imp_congr_right fun hparts => ?_
  refine exists_congr fun n => and_congr_right fun _ => ?_
  constructor
  · rintro rfl
    rw [stemAndExtension_name n dotless_key, Prod.mk.injEq] at hparts
    exact hparts.1.symm
  · rintro rfl
    exact Text.eq_of_stemAndExtension hparts

theorem keyFile_name (n : Nat) : KeyFile (name n keyExtension) (Decimal.ofNat n) :=
  keyFile_iff.mpr (stemAndExtension_name n dotless_key)

/-- A scan fails only because of a key file that is not one of a slot. -/
theorem scanNames_eq_error {directory : Location} {names : List String} {found : List Nat}
    {e : StateError} (h : scanNames directory names found = .error e) :
    ∃ x ∈ names, ¬Numbered x ∧
      e = .corrupt (directory.join x).text "key file name is not a slot number" := by
  induction names generalizing found with
  | nil => cases h
  | cons x rest ih =>
    have hlater : ∀ {found}, scanNames directory rest found = .error e →
        ∃ y ∈ x :: rest, ¬Numbered y ∧
          e = .corrupt (directory.join y).text "key file name is not a slot number" := by
      intro found h
      obtain ⟨y, hy, hfault⟩ := ih h
      exact ⟨y, List.mem_cons_of_mem x hy, hfault⟩
    rcases scanNames_cons_cases directory x rest found with
      ⟨n, -, -, hscan⟩ | ⟨hx, hscan⟩ | ⟨-, -, hscan⟩
    · exact hlater (hscan.symm.trans h)
    · exact ⟨x, List.mem_cons_self, hx, Except.error.inj (h.symm.trans hscan)⟩
    · exact hlater (hscan.symm.trans h)

/-- The slots a listing yields: those whose key files it names, in ascending order. -/
theorem scanNames_eq_ok_iff {directory : Location} {names : List String} {slots : List Nat} :
    scanNames directory names [] = .ok slots ↔ (∀ x ∈ names, Numbered x) ∧
      slots.Pairwise (· < ·) ∧
        ∀ n, n ∈ slots ↔ n ≤ Decimal.maxU32 ∧ name n keyExtension ∈ names := by
  have hfound : (∀ x ∈ names, Numbered x) → ∃ slots, scanNames directory names [] = .ok slots ∧
      slots.Pairwise (· < ·) ∧
        ∀ n, n ∈ slots ↔ n ≤ Decimal.maxU32 ∧ name n keyExtension ∈ names := by
    intro hnames
    simpa only [List.not_mem_nil, false_or] using scanNames_ok directory hnames .nil
  constructor
  · intro h
    have hnames := numbered_of_scanNames h
    obtain ⟨slots', hscan, hslots'⟩ := hfound hnames
    obtain rfl := Except.ok.inj (h.symm.trans hscan)
    exact ⟨hnames, hslots'⟩
  · rintro ⟨hnames, hslots, hmem⟩
    obtain ⟨slots', hscan, hslots', hmem'⟩ := hfound hnames
    rw [hscan, eq_of_ascending hslots' hslots fun n => (hmem' n).trans (hmem n).symm]

theorem scan_of_list {t : FileTree} {directory : Location} {names : List String}
    (h : t.list directory.path = .ok names) :
    scan t directory = scanNames directory names [] := by
  rw [scan, h]

/-- Slots and key files stand for each other. -/
theorem bijOn_name {directory : Location} {names : List String} {slots : List Nat}
    (h : scanNames directory names [] = .ok slots) :
    Set.BijOn (fun n => name n keyExtension) {n | n ∈ slots}
      {x | x ∈ names ∧ ∃ stem, KeyFile x stem} := by
  obtain ⟨hnames, -, hmem⟩ := scanNames_eq_ok_iff.mp h
  refine ⟨fun n hn => ⟨((hmem n).mp hn).2, _, keyFile_name n⟩, ?_, ?_⟩
  · intro m _ n _ heq
    exact (name_inj dotless_key dotless_key heq).1
  · rintro x ⟨hx, stem, hstem⟩
    obtain ⟨n, hn, rfl⟩ := hnames x hx stem (keyFile_iff.mp hstem)
    exact ⟨n, (hmem n).mpr ⟨hn, hx⟩, rfl⟩

/-- The key file of a slot is met once when the slots are gone through. -/
theorem count_file {directory : Location} {slots : List Nat} (h : slots.Pairwise (· < ·)) {n : Nat}
    (hn : n ∈ slots) :
    (slots.map fun m => file directory m keyExtension).count (file directory n keyExtension) =
      1 := by
  refine List.count_eq_one_of_mem ?_ (List.mem_map_of_mem hn)
  refine List.Nodup.map (fun a b heq => ?_) (h.imp Nat.ne_of_lt)
  have hnames := congrArg (fun l : Location => l.below.getLast?) heq
  simp only [file, Location.join, List.getLast?_concat, Option.some.injEq] at hnames
  exact (name_inj dotless_key dotless_key hnames).1

/-- A scan of a directory succeeds exactly if the stem of each key file is the numeral of a number
of thirty-two bits. The slots it then yields, in ascending order, correspond one to one to the key
files, each of which is met once when they are gone through, whatever order the directory is listed
in. Otherwise a key file that is not named so is reported. -/
theorem scan_exact (t : FileTree) (directory : Location) (names : List String)
    (h : t.list directory.path = .ok names) :
    ((∃ slots, scan t directory = .ok slots) ↔
      ∀ x ∈ names, ∀ stem, KeyFile x stem → Decimal.Canonical Decimal.maxU32 stem) ∧
    (∀ slots, scan t directory = .ok slots →
      slots.Pairwise (· < ·) ∧ (∀ n ∈ slots, n ≤ Decimal.maxU32) ∧
      Set.BijOn (fun n => name n keyExtension) {n | n ∈ slots}
        {x | x ∈ names ∧ ∃ stem, KeyFile x stem} ∧
      (∀ x ∈ names, ∀ stem, KeyFile x stem →
        (slots.map fun n => file directory n keyExtension).count (directory.join x) = 1) ∧
      ∀ t' names', t'.list directory.path = .ok names' → names.Perm names' →
        scan t' directory = .ok slots) ∧
    ∀ e, scan t directory = .error e → ∃ x ∈ names, ∃ stem, KeyFile x stem ∧
      ¬Decimal.Canonical Decimal.maxU32 stem ∧
        e = .corrupt (directory.join x).text "key file name is not a slot number" := by
  rw [scan_of_list h]
  refine ⟨?_, ?_, ?_⟩
  · simp only [← numbered_iff]
    constructor
    · rintro ⟨slots, hscan⟩
      exact (scanNames_eq_ok_iff.mp hscan).1
    · intro hnames
      obtain ⟨slots, hscan, -⟩ := scanNames_ok directory hnames .nil
      exact ⟨slots, hscan⟩
  · intro slots hscan
    obtain ⟨hnames, hslots, hmem⟩ := scanNames_eq_ok_iff.mp hscan
    refine ⟨hslots, fun n hn => ((hmem n).mp hn).1, bijOn_name hscan, ?_, ?_⟩
    · intro x hx stem hstem
      obtain ⟨n, hn, rfl⟩ := hnames x hx stem (keyFile_iff.mp hstem)
      exact count_file hslots ((hmem n).mpr ⟨hn, hx⟩)
    · intro t' names' hlist hperm
      rw [scan_of_list hlist, scanNames_eq_ok_iff]
      simp only [← hperm.mem_iff]
      exact ⟨hnames, hslots, hmem⟩
  · intro e hscan
    obtain ⟨x, hx, hnot, rfl⟩ := scanNames_eq_error hscan
    rw [numbered_iff] at hnot
    push Not at hnot
    obtain ⟨stem, hstem, hcanonical⟩ := hnot
    exact ⟨x, hx, stem, hstem, hcanonical, rfl⟩

/-- A directory that holds files with these names. -/
def listing (names : List String) : FileTree :=
  (["d"], .directory) :: names.map fun x => (["d", x], .file (.bytes []))

theorem scan_exact_shuffled :
    (listing ["10.key", ".key", "7.value", "0.key"]).list ["d"] =
        .ok ["10.key", ".key", "7.value", "0.key"] ∧
      scan (listing ["10.key", ".key", "7.value", "0.key"]) ⟨"d", []⟩ = .ok [0, 10] ∧
      Set.BijOn (fun n => name n keyExtension) {n | n ∈ [0, 10]}
        {x | x ∈ ["10.key", ".key", "7.value", "0.key"] ∧ ∃ stem, KeyFile x stem} ∧
      ∀ slots, scan (listing ["0.key", "+7.key"]) ⟨"d", []⟩ ≠ .ok slots := by
  have hlist : (listing ["10.key", ".key", "7.value", "0.key"]).list (Location.path ⟨"d", []⟩) =
      .ok ["10.key", ".key", "7.value", "0.key"] := by cbv
  have hscan : scan (listing ["10.key", ".key", "7.value", "0.key"]) ⟨"d", []⟩ = .ok [0, 10] := by
    cbv
  have hlist' : (listing ["0.key", "+7.key"]).list (Location.path ⟨"d", []⟩) =
      .ok ["0.key", "+7.key"] := by cbv
  obtain ⟨-, hfound, -⟩ := scan_exact _ ⟨"d", []⟩ _ hlist
  obtain ⟨-, -, hnames, -, -⟩ := hfound _ hscan
  refine ⟨hlist, hscan, hnames, fun slots hsigned => ?_⟩
  have hcanonical := (scan_exact _ _ _ hlist').1.mp ⟨_, hsigned⟩
  have hplus := (hcanonical "+7.key" (by decide) "+7" ⟨by decide, by decide⟩).digits '+' (by decide)
  exact absurd hplus (by decide)

/-! ## The lowest free number -/

/-- The search for a free number in machine words. It gives no answer where the greatest word would
have to be passed. -/
def freeWordFrom (candidate : UInt32) : List UInt32 → Option UInt32
  | [] => some candidate
  | n :: rest =>
    if n = candidate then
      if candidate.toNat = Decimal.maxU32 then none else freeWordFrom (candidate + 1) rest
    else some candidate

/-- While a word is free the search in words does not overflow, so it is that in numbers. -/
theorem freeWordFrom_eq {candidate : UInt32} {words : List UInt32} (h : words.Pairwise (· < ·))
    (hle : ∀ n ∈ words, candidate ≤ n) {w : UInt32} (hw : candidate ≤ w) (hfree : w ∉ words) :
    ∃ free, freeWordFrom candidate words = some free ∧
      freeFrom candidate.toNat (words.map UInt32.toNat) = free.toNat := by
  induction words generalizing candidate with
  | nil => exact ⟨candidate, rfl, rfl⟩
  | cons n rest ih =>
    obtain ⟨hn, hrest⟩ := List.pairwise_cons.mp h
    rw [List.mem_cons, not_or] at hfree
    rw [freeWordFrom, List.map_cons, freeFrom]
    by_cases heq : n = candidate
    · subst heq
      have hlt : n.toNat < w.toNat :=
        UInt32.lt_iff_toNat_lt.mp (UInt32.lt_of_le_of_ne hw (Ne.symm hfree.1))
      have hroom := w.toNat_lt
      have hnext : (n + 1).toNat = n.toNat + 1 := by
        rw [UInt32.toNat_add]
        exact Nat.mod_eq_of_lt (by simp only [UInt32.reduceToNat]; omega)
      have hmax : n.toNat ≠ Decimal.maxU32 := by
        unfold Decimal.maxU32
        omega
      rw [if_pos rfl, if_neg hmax, if_pos rfl, ← hnext]
      refine ih hrest (fun m hm => ?_) ?_ hfree.2
      · rw [UInt32.le_iff_toNat_le, hnext]
        exact UInt32.lt_iff_toNat_lt.mp (hn m hm)
      · rw [UInt32.le_iff_toNat_le, hnext]
        exact hlt
    · have hne : n.toNat ≠ candidate.toNat := fun h => heq (UInt32.toNat_inj.mp h)
      rw [if_neg heq, if_neg hne]
      exact ⟨candidate, rfl, rfl⟩

/-- Of ascending words that are not all there are, the search finds the least that is missing, and
passes no word for it that does not exist. It is not above the number of the words. -/
theorem lowestFree_least (words : List UInt32) (h : words.Pairwise (· < ·))
    (hroom : ∃ w, w ∉ words) :
    ∃ free, freeWordFrom 0 words = some free ∧
      lowestFree (words.map UInt32.toNat) = free.toNat ∧ free ∉ words ∧
      (∀ w < free, w ∈ words) ∧ free.toNat ≤ words.length := by
  obtain ⟨w, hw⟩ := hroom
  have hascending : (words.map UInt32.toNat).Pairwise (· < ·) :=
    h.map UInt32.toNat fun _ _ hlt => UInt32.lt_iff_toNat_lt.mp hlt
  have hmem : ∀ v : UInt32, v.toNat ∈ words.map UInt32.toNat ↔ v ∈ words := by
    intro v
    simp only [List.mem_map, UInt32.toNat_inj, exists_eq_right]
  obtain ⟨free, hfree, hlowest⟩ := freeWordFrom_eq h (fun _ _ => UInt32.zero_le) UInt32.zero_le hw
  change lowestFree (words.map UInt32.toNat) = free.toNat at hlowest
  refine ⟨free, hfree, hlowest, ?_, fun v hv => ?_, ?_⟩
  · rw [← hmem, ← hlowest]
    exact lowestFree_not_mem hascending
  · rw [← hmem]
    refine mem_of_lt_lowestFree ?_
    rw [hlowest]
    exact UInt32.lt_iff_toNat_lt.mp hv
  · rw [← hlowest, ← List.length_map UInt32.toNat]
    exact lowestFree_le _

theorem lowestFree_least_hole :
    [0, 1, 3, 4294967295].Pairwise (fun a b : UInt32 => a < b) ∧
      (∃ w : UInt32, w ∉ [0, 1, 3, 4294967295]) ∧
      freeWordFrom 0 [0, 1, 3, 4294967295] = some 2 ∧ lowestFree [0, 1, 3, 4294967295] = 2 ∧
      (2 : UInt32) ∉ [0, 1, 3, 4294967295] ∧ ∀ w < (2 : UInt32), w ∈ [0, 1, 3, 4294967295] := by
  have hascending : [0, 1, 3, 4294967295].Pairwise fun a b : UInt32 => a < b := by decide
  have hroom : ∃ w : UInt32, w ∉ [0, 1, 3, 4294967295] := ⟨2, by decide⟩
  obtain ⟨free, hfree, hlowest, hnot, hbelow, -⟩ := lowestFree_least _ hascending hroom
  obtain rfl : 2 = free := Option.some.inj hfree
  exact ⟨hascending, hroom, hfree, hlowest, hnot, hbelow⟩

end KeyedLog.Slot
