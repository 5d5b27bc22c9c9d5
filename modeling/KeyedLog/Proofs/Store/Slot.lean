import KeyedLog.Proofs.FileTree.View
import KeyedLog.Proofs.Text.FileName
import KeyedLog.Store.Slot
import Mathlib.Data.Finset.Card
import Mathlib.Data.List.Nodup
import Mathlib.Tactic.Choose

/-!
# What the slots of a directory hold

The listing of a directory yields its slots in ascending order whatever the order it comes in, so
that the key of a slot is found and the lowest free number is free.
-/
namespace KeyedLog.Slot

/-- The name of a file of a slot. -/
def name (n : Nat) (extension : String) : String := Decimal.ofNat n ++ "." ++ extension

theorem file_path (directory : Location) (n : Nat) (extension : String) :
    (file directory n extension).path = directory.path ++ [name n extension] :=
  Location.path_join directory _

theorem number?_ofNat {n : Nat} (h : n ≤ Decimal.maxU32) : number? (Decimal.ofNat n) = some n := by
  rw [number?, Decimal.readU32_ofNat h]
  exact if_pos rfl

theorem number?_eq_some {stem : String} {n : Nat} (h : number? stem = some n) :
    stem = Decimal.ofNat n ∧ n ≤ Decimal.maxU32 := by
  rw [number?] at h
  split at h
  · next hread =>
    split at h
    · next heq =>
      obtain rfl := Option.some.inj h
      exact ⟨heq.symm, Decimal.readU32_le hread⟩
    · cases h
  · cases h

/-- A file extension: no dot is in it. -/
def Dotless (extension : String) : Prop := '.' ∉ extension.toList

theorem dotless_key : Dotless keyExtension := by simp [Dotless, keyExtension]

theorem dotless_value : Dotless valueExtension := by simp [Dotless, valueExtension]

theorem dotless_correlation : Dotless correlationExtension := by
  simp [Dotless, correlationExtension]

/-- The extensions of the files of a slot. -/
def extensions : List String := [keyExtension, valueExtension, correlationExtension]

theorem mem_extensions {extension : String} : extension ∈ extensions ↔
    extension = keyExtension ∨ extension = valueExtension ∨ extension = correlationExtension := by
  simp [extensions]

theorem dotless_of_mem {extension : String} (h : extension ∈ extensions) : Dotless extension := by
  rcases mem_extensions.mp h with rfl | rfl | rfl
  · exact dotless_key
  · exact dotless_value
  · exact dotless_correlation

theorem ne_empty_of_mem {extension : String} (h : extension ∈ extensions) : extension ≠ "" := by
  rcases mem_extensions.mp h with rfl | rfl | rfl <;> decide

theorem stemAndExtension_name (n : Nat) {extension : String} (h : Dotless extension) :
    Text.stemAndExtension (name n extension) = (Decimal.ofNat n, some extension) :=
  Decimal.stemAndExtension_ofNat n h

theorem name_inj {m n : Nat} {first second : String} (hfirst : Dotless first)
    (hsecond : Dotless second) (h : name m first = name n second) : m = n ∧ first = second := by
  have hparts := congrArg Text.stemAndExtension h
  rw [stemAndExtension_name m hfirst, stemAndExtension_name n hsecond, Prod.mk.injEq,
    Decimal.ofNat_inj, Option.some.injEq] at hparts
  exact hparts

theorem name_inj_below {dir : Path} {m n : Nat} {first second : String} (hfirst : Dotless first)
    (hsecond : Dotless second) (h : dir ++ [name m first] = dir ++ [name n second]) :
    m = n ∧ first = second := by
  rw [List.append_cancel_left_eq, List.cons.injEq] at h
  exact name_inj hfirst hsecond h.1

/-- The files of slots differ if their extensions do. -/
theorem name_ne {m n : Nat} {first second : String} (hfirst : Dotless first)
    (hsecond : Dotless second) (hne : first ≠ second) : name m first ≠ name n second :=
  fun h => hne (name_inj hfirst hsecond h).2

theorem name_ne_dots (n : Nat) {extension : String} (h : Dotless extension) (hne : extension ≠ "") :
    name n extension ≠ ".." := by
  intro heq
  have hparts := stemAndExtension_name n h
  have hdots : Text.stemAndExtension ".." = (".", some "") := by decide
  rw [heq, hdots, Prod.mk.injEq, Option.some.injEq] at hparts
  exact hne hparts.2.symm

/-! ## Ascending numbers -/

theorem mem_insert {n m : Nat} {slots : List Nat} : m ∈ insert n slots ↔ m = n ∨ m ∈ slots := by
  induction slots with
  | nil => simp [insert]
  | cons x rest ih =>
    rw [insert]
    split
    · simp
    · split
      · next h =>
        subst h
        simp
      · simp only [List.mem_cons, ih]
        tauto

theorem ascending_insert {n : Nat} {slots : List Nat} (h : slots.Pairwise (· < ·)) :
    (insert n slots).Pairwise (· < ·) := by
  induction slots with
  | nil => simp [insert]
  | cons x rest ih =>
    obtain ⟨hx, hrest⟩ := List.pairwise_cons.mp h
    rw [insert]
    split
    · next hlt =>
      refine List.pairwise_cons.mpr ⟨?_, h⟩
      intro y hy
      cases List.mem_cons.mp hy with
      | inl heq => rwa [heq]
      | inr hy => exact Nat.lt_trans hlt (hx y hy)
    · split
      · exact h
      · refine List.pairwise_cons.mpr ⟨?_, ih hrest⟩
        intro y hy
        cases mem_insert.mp hy with
        | inl heq => omega
        | inr hy => exact hx y hy

theorem length_insert_le (n : Nat) (slots : List Nat) :
    (insert n slots).length ≤ slots.length + 1 := by
  induction slots with
  | nil => exact Nat.le_refl 1
  | cons m rest ih =>
    rw [insert]
    split
    · exact Nat.le_refl _
    · split
      · exact Nat.le_succ _
      · exact Nat.succ_le_succ ih

/-- A number is put between those before it and those after it. -/
theorem insert_split {n : Nat} {slots : List Nat} (h : n ∉ slots) :
    ∃ before after, slots = before ++ after ∧ insert n slots = before ++ n :: after := by
  induction slots with
  | nil => exact ⟨[], [], rfl, rfl⟩
  | cons m rest ih =>
    rw [List.mem_cons, not_or] at h
    rw [insert]
    split
    · exact ⟨[], m :: rest, rfl, rfl⟩
    · rw [if_neg h.1]
      obtain ⟨before, after, rfl, hinsert⟩ := ih h.2
      exact ⟨m :: before, after, rfl, by rw [hinsert, List.cons_append]⟩

/-- Ascending numbers are told by which they are. -/
theorem eq_of_ascending {slots others : List Nat} (h : slots.Pairwise (· < ·))
    (h' : others.Pairwise (· < ·)) (hmem : ∀ n, n ∈ slots ↔ n ∈ others) : slots = others := by
  have hperm : slots.Perm others :=
    (List.perm_ext_iff_of_nodup (h.imp Nat.ne_of_lt) (h'.imp Nat.ne_of_lt)).mpr hmem
  exact hperm.eq_of_pairwise (fun a b _ _ hab hba => absurd hab (Nat.lt_asymm hba)) h h'

theorem le_freeFrom (candidate : Nat) (slots : List Nat) :
    candidate ≤ freeFrom candidate slots := by
  induction slots generalizing candidate with
  | nil => exact Nat.le_refl candidate
  | cons n rest ih =>
    have := ih (candidate + 1)
    rw [freeFrom]
    split <;> omega

theorem freeFrom_not_mem {candidate : Nat} {slots : List Nat} (h : slots.Pairwise (· < ·))
    (hle : ∀ n ∈ slots, candidate ≤ n) : freeFrom candidate slots ∉ slots := by
  induction slots generalizing candidate with
  | nil => exact List.not_mem_nil
  | cons n rest ih =>
    obtain ⟨hn, hrest⟩ := List.pairwise_cons.mp h
    rw [freeFrom]
    split
    · next heq =>
      have hnext : freeFrom (candidate + 1) rest ∉ rest := ih hrest fun m hm => by
        have := hn m hm
        omega
      have := le_freeFrom (candidate + 1) rest
      rw [List.mem_cons, not_or]
      exact ⟨by omega, hnext⟩
    · next hne =>
      rw [List.mem_cons, not_or]
      have := hle n List.mem_cons_self
      refine ⟨Ne.symm hne, fun hmem => ?_⟩
      have := hn candidate hmem
      omega

theorem freeFrom_le (candidate : Nat) (slots : List Nat) :
    freeFrom candidate slots ≤ candidate + slots.length := by
  induction slots generalizing candidate with
  | nil => exact Nat.le_refl candidate
  | cons n rest ih =>
    have := ih (candidate + 1)
    rw [freeFrom, List.length_cons]
    split <;> omega

theorem lowestFree_not_mem {slots : List Nat} (h : slots.Pairwise (· < ·)) :
    lowestFree slots ∉ slots := freeFrom_not_mem h fun _ _ => Nat.zero_le _

theorem lowestFree_le (slots : List Nat) : lowestFree slots ≤ slots.length := by
  have := freeFrom_le 0 slots
  rwa [Nat.zero_add] at this

/-- All numbers below the lowest free one are taken. -/
theorem mem_of_lt_freeFrom {candidate m : Nat} {slots : List Nat} (hle : candidate ≤ m)
    (hlt : m < freeFrom candidate slots) : m ∈ slots := by
  induction slots generalizing candidate with
  | nil => exact absurd hlt (Nat.not_lt.mpr hle)
  | cons n rest ih =>
    rw [freeFrom] at hlt
    split at hlt
    · next heq =>
      rcases Nat.eq_or_lt_of_le hle with rfl | hlt'
      · rw [heq]
        exact List.mem_cons_self
      · exact List.mem_cons_of_mem _ (ih hlt' hlt)
    · exact absurd hlt (Nat.not_lt.mpr hle)

theorem mem_of_lt_lowestFree {m : Nat} {slots : List Nat} (h : m < lowestFree slots) : m ∈ slots :=
  mem_of_lt_freeFrom (Nat.zero_le m) h

/-! ## Scanning -/

/-- The names a directory lists are fit for a scan: each key file is one of a slot. -/
def Numbered (x : String) : Prop :=
  ∀ stem, Text.stemAndExtension x = (stem, some keyExtension) →
    ∃ n, n ≤ Decimal.maxU32 ∧ x = name n keyExtension

theorem numbered_name {n : Nat} {extension : String} (hn : n ≤ Decimal.maxU32)
    (hext : extension ∈ extensions) : Numbered (name n extension) := by
  intro stem hstem
  rw [stemAndExtension_name n (dotless_of_mem hext), Prod.mk.injEq, Option.some.injEq] at hstem
  exact ⟨n, hn, by rw [hstem.2]⟩

/-- What a scan does with a name: it notes the slot of a key file, fails at a key file that has
none, and passes over any other name. -/
theorem scanNames_cons_cases (directory : Location) (x : String) (rest : List String)
    (found : List Nat) :
    (∃ n ≤ Decimal.maxU32, x = name n keyExtension ∧
      scanNames directory (x :: rest) found = scanNames directory rest (insert n found)) ∨
    (¬Numbered x ∧ scanNames directory (x :: rest) found =
      .error (.corrupt (directory.join x).text "key file name is not a slot number")) ∨
    (Numbered x ∧ (∀ n, x ≠ name n keyExtension) ∧
      scanNames directory (x :: rest) found = scanNames directory rest found) := by
  rw [scanNames]
  split
  · next stem extension hparts =>
    split
    · next hkey =>
      subst hkey
      split
      · next n hnumber =>
        obtain ⟨rfl, hn⟩ := number?_eq_some hnumber
        exact .inl ⟨n, hn, Text.eq_of_stemAndExtension hparts, rfl⟩
      · next hnumber =>
        refine .inr (.inl ⟨fun hnumbered => ?_, rfl⟩)
        obtain ⟨n, hn, rfl⟩ := hnumbered stem hparts
        rw [stemAndExtension_name n dotless_key, Prod.mk.injEq] at hparts
        rw [← hparts.1, number?_ofNat hn] at hnumber
        cases hnumber
    · next hkey =>
      refine .inr (.inr ⟨fun stem' hstem => ?_, ?_, rfl⟩)
      · rw [hparts, Prod.mk.injEq, Option.some.injEq] at hstem
        exact absurd hstem.2 hkey
      · rintro n rfl
        rw [stemAndExtension_name n dotless_key, Prod.mk.injEq, Option.some.injEq] at hparts
        exact hkey hparts.2.symm
  · next hparts =>
    refine .inr (.inr ⟨fun stem' hstem => ?_, ?_, rfl⟩)
    · rw [hparts] at hstem
      cases hstem
    · rintro n rfl
      rw [stemAndExtension_name n dotless_key] at hparts
      cases hparts

theorem scanNames_ok (directory : Location) {names : List String} {found : List Nat}
    (hnames : ∀ x ∈ names, Numbered x) (hfound : found.Pairwise (· < ·)) :
    ∃ slots, scanNames directory names found = .ok slots ∧ slots.Pairwise (· < ·) ∧
      ∀ n, n ∈ slots ↔ n ∈ found ∨ n ≤ Decimal.maxU32 ∧ name n keyExtension ∈ names := by
  induction names generalizing found with
  | nil => exact ⟨found, rfl, hfound, by simp⟩
  | cons x rest ih =>
    obtain ⟨hx, hrest⟩ := List.forall_mem_cons.mp hnames
    rcases scanNames_cons_cases directory x rest found with
      ⟨n, hn, rfl, hscan⟩ | ⟨hnot, -⟩ | ⟨-, hother, hscan⟩
    · obtain ⟨slots, hslots, hascending, hmem⟩ := ih hrest (ascending_insert hfound)
      refine ⟨slots, hscan.trans hslots, hascending, fun m => ?_⟩
      rw [hmem, mem_insert, List.mem_cons]
      constructor
      · rintro ((rfl | hm) | ⟨hm, hin⟩)
        · exact .inr ⟨hn, .inl rfl⟩
        · exact .inl hm
        · exact .inr ⟨hm, .inr hin⟩
      · rintro (hm | ⟨hm, heq | hin⟩)
        · exact .inl (.inr hm)
        · exact .inl (.inl (name_inj dotless_key dotless_key heq).1)
        · exact .inr ⟨hm, hin⟩
    · exact absurd hx hnot
    · obtain ⟨slots, hslots, hascending, hmem⟩ := ih hrest hfound
      refine ⟨slots, hscan.trans hslots, hascending, fun n => ?_⟩
      rw [hmem, List.mem_cons, or_iff_right (Ne.symm (hother n))]

/-- A scan that succeeds has found no other key files. -/
theorem numbered_of_scanNames {directory : Location} {names : List String} {found slots : List Nat}
    (h : scanNames directory names found = .ok slots) : ∀ x ∈ names, Numbered x := by
  induction names generalizing found with
  | nil => nofun
  | cons x rest ih =>
    rw [List.forall_mem_cons]
    rcases scanNames_cons_cases directory x rest found with
      ⟨n, hn, rfl, hscan⟩ | ⟨-, hscan⟩ | ⟨hx, -, hscan⟩
    · exact ⟨numbered_name hn (by simp [extensions]), ih (hscan.symm.trans h)⟩
    · cases hscan.symm.trans h
    · exact ⟨hx, ih (hscan.symm.trans h)⟩

/-- No name gives more than one slot. -/
theorem length_of_scanNames {directory : Location} {names : List String} {found slots : List Nat}
    (h : scanNames directory names found = .ok slots) :
    slots.length ≤ names.length + found.length := by
  induction names generalizing found with
  | nil =>
    rw [← Except.ok.inj h]
    exact Nat.le_add_left _ _
  | cons x rest ih =>
    rw [List.length_cons]
    rcases scanNames_cons_cases directory x rest found with
      ⟨n, -, -, hscan⟩ | ⟨-, hscan⟩ | ⟨-, -, hscan⟩
    · have := ih (hscan.symm.trans h)
      have := length_insert_le n found
      omega
    · cases hscan.symm.trans h
    · have := ih (hscan.symm.trans h)
      omega

/-! ## The contents of a directory -/

/-- The three files of a slot that is in use. -/
structure Keeps (f : String → Option Node) (n : Nat) (key : Bytes) (stored : StoredValue) :
    Prop where
  key : f (name n keyExtension) = some (.file (.bytes key))
  value : f (name n valueExtension) = some (.file (.bytes stored.value))
  correlation : f (name n correlationExtension) =
    some (.file (.bytes (Utf8.encode stored.correlation)))

theorem Keeps.isSome {f : String → Option Node} {n : Nat} {key : Bytes} {stored : StoredValue}
    (h : Keeps f n key stored) {extension : String} (hext : extension ∈ extensions) :
    (f (name n extension)).isSome := by
  rcases mem_extensions.mp hext with rfl | rfl | rfl
  · rw [h.key]
    rfl
  · rw [h.value]
    rfl
  · rw [h.correlation]
    rfl

/-- A directory, as a function of the names in it, that holds the values of some keys. -/
structure Holds (f : String → Option Node) (g : Bytes → Option StoredValue) : Prop where
  held : ∀ key stored, g key = some stored → ∃ n, n ≤ Decimal.maxU32 ∧ Keeps f n key stored
  named : ∀ x, (f x).isSome → ∀ stem, Text.stemAndExtension x = (stem, some keyExtension) →
    ∃ n key stored, n ≤ Decimal.maxU32 ∧ x = name n keyExtension ∧ g key = some stored ∧
      Keeps f n key stored
  files : ∀ x, f x ≠ some .directory
  once : ∀ m n key, f (name m keyExtension) = some (.file (.bytes key)) →
    f (name n keyExtension) = some (.file (.bytes key)) → m = n

namespace Holds

variable {f : String → Option Node} {g : Bytes → Option StoredValue}

/-- The key file of a slot means that the slot is in use. -/
theorem keeps (h : Holds f g) {n : Nat} (hn : (f (name n keyExtension)).isSome) :
    n ≤ Decimal.maxU32 ∧ ∃ key stored, g key = some stored ∧ Keeps f n key stored := by
  obtain ⟨m, key, stored, hm, hname, hg, hkeeps⟩ :=
    h.named _ hn _ (stemAndExtension_name n dotless_key)
  obtain ⟨rfl, -⟩ := name_inj dotless_key dotless_key hname
  exact ⟨hm, key, stored, hg, hkeeps⟩

theorem numbered (h : Holds f g) {x : String} (hx : (f x).isSome) : Numbered x := by
  intro stem hstem
  obtain ⟨n, _, _, hn, hname, _, _⟩ := h.named x hx stem hstem
  exact ⟨n, hn, hname⟩

end Holds

/-! ## Changing one slot -/

open Function (update)

/-- A directory with other files in one of its slots. -/
def setSlot (f : String → Option Node) (n : Nat) (key value correlation : Option Node) :
    String → Option Node :=
  update (update (update f (name n valueExtension) value) (name n correlationExtension) correlation)
    (name n keyExtension) key

section SetSlot

variable {f : String → Option Node} {g : Bytes → Option StoredValue} {m n : Nat}
  {key value correlation : Option Node}

theorem setSlot_key : setSlot f n key value correlation (name n keyExtension) = key :=
  Function.update_self ..

theorem setSlot_value : setSlot f n key value correlation (name n valueExtension) = value := by
  have hkey : name n valueExtension ≠ name n keyExtension :=
    name_ne dotless_value dotless_key (by decide)
  have hcorrelation : name n valueExtension ≠ name n correlationExtension :=
    name_ne dotless_value dotless_correlation (by decide)
  rw [setSlot, Function.update_of_ne hkey, Function.update_of_ne hcorrelation,
    Function.update_self]

theorem setSlot_correlation :
    setSlot f n key value correlation (name n correlationExtension) = correlation := by
  have hkey : name n correlationExtension ≠ name n keyExtension :=
    name_ne dotless_correlation dotless_key (by decide)
  rw [setSlot, Function.update_of_ne hkey, Function.update_self]

theorem setSlot_other {x : String} (hx : ∀ extension ∈ extensions, x ≠ name n extension) :
    setSlot f n key value correlation x = f x := by
  rw [setSlot, Function.update_of_ne (hx _ (by simp [extensions])),
    Function.update_of_ne (hx _ (by simp [extensions])),
    Function.update_of_ne (hx _ (by simp [extensions]))]

theorem setSlot_of_ne (h : m ≠ n) {extension : String} (hext : Dotless extension) :
    setSlot f n key value correlation (name m extension) = f (name m extension) :=
  setSlot_other fun _ hother heq => h (name_inj hext (dotless_of_mem hother) heq).1

theorem setSlot_self :
    setSlot f n (f (name n keyExtension)) (f (name n valueExtension))
      (f (name n correlationExtension)) = f := by
  simp only [setSlot, Function.update_eq_self]

theorem update_setSlot_key (node : Option Node) :
    update (setSlot f n key value correlation) (name n keyExtension) node =
      setSlot f n node value correlation :=
  Function.update_idem ..

theorem update_setSlot_correlation (node : Option Node) :
    update (setSlot f n key value correlation) (name n correlationExtension) node =
      setSlot f n key value node := by
  have hne : name n correlationExtension ≠ name n keyExtension :=
    name_ne dotless_correlation dotless_key (by decide)
  rw [setSlot, Function.update_comm hne.symm, Function.update_idem, setSlot]

theorem update_setSlot_value (node : Option Node) :
    update (setSlot f n key value correlation) (name n valueExtension) node =
      setSlot f n key node correlation := by
  have hkey : name n valueExtension ≠ name n keyExtension :=
    name_ne dotless_value dotless_key (by decide)
  have hcorrelation : name n valueExtension ≠ name n correlationExtension :=
    name_ne dotless_value dotless_correlation (by decide)
  rw [setSlot, Function.update_comm hkey.symm, Function.update_comm hcorrelation.symm,
    Function.update_idem, setSlot]

/-- Whatever is put into one slot, no directory comes up. -/
theorem setSlot_files (h : ∀ x, f x ≠ some .directory) (hk : key ≠ some .directory)
    (hv : value ≠ some .directory) (hc : correlation ≠ some .directory) (x : String) :
    setSlot f n key value correlation x ≠ some .directory := by
  simp only [setSlot, Function.update_apply]
  split
  · exact hk
  · split
    · exact hc
    · split
      · exact hv
      · exact h x

theorem keeps_setSlot (h : m ≠ n) {k : Bytes} {stored : StoredValue} :
    Keeps (setSlot f n key value correlation) m k stored ↔ Keeps f m k stored := by
  constructor
  · rintro ⟨hkey, hvalue, hcorrelation⟩
    rw [setSlot_of_ne h dotless_key] at hkey
    rw [setSlot_of_ne h dotless_value] at hvalue
    rw [setSlot_of_ne h dotless_correlation] at hcorrelation
    exact ⟨hkey, hvalue, hcorrelation⟩
  · rintro ⟨hkey, hvalue, hcorrelation⟩
    constructor
    · rw [setSlot_of_ne h dotless_key, hkey]
    · rw [setSlot_of_ne h dotless_value, hvalue]
    · rw [setSlot_of_ne h dotless_correlation, hcorrelation]

end SetSlot

/-- A slot is the one of a key, or free if the key has none. -/
def Suits (f : String → Option Node) (g : Bytes → Option StoredValue) (n : Nat) (key : Bytes) :
    Prop :=
  f (name n keyExtension) = some (.file (.bytes key)) ∨
    f (name n keyExtension) = none ∧ g key = none

/-- The slot that a value is stored in: the one of its key, or else the lowest that is free. -/
inductive Takes (f : String → Option Node) (g : Bytes → Option StoredValue) (n : Nat)
    (key : Bytes) : Prop where
  | held {stored} : g key = some stored → Keeps f n key stored → Takes f g n key
  | lowest : g key = none → f (name n keyExtension) = none →
      (∀ m < n, (f (name m keyExtension)).isSome) → Takes f g n key

theorem Takes.suits {f : String → Option Node} {g : Bytes → Option StoredValue} {n : Nat}
    {key : Bytes} (h : Takes f g n key) : Suits f g n key := by
  cases h with
  | held _ hkeeps => exact .inl hkeeps.key
  | lowest hnew hfree _ => exact .inr ⟨hfree, hnew⟩

namespace Holds

variable {f : String → Option Node} {g : Bytes → Option StoredValue} {n : Nat} {key : Bytes}

/-- The slots of other keys are other slots. -/
theorem apart (h : Holds f g) (hslot : Suits f g n key) {m : Nat} {k : Bytes} {s : StoredValue}
    (hkept : Keeps f m k s) (hk : g k = some s) : k = key ↔ m = n := by
  constructor
  · rintro rfl
    rcases hslot with hslot | ⟨-, hnew⟩
    · exact h.once m n k hkept.key hslot
    · rw [hnew] at hk
      cases hk
  · rintro rfl
    rcases hslot with hslot | ⟨hfree, -⟩
    · rw [hkept.key] at hslot
      simpa using hslot
    · rw [hkept.key] at hfree
      cases hfree

/-- Other keys stay where they are while the slot of a key changes. -/
theorem held_setSlot (h : Holds f g) (hslot : Suits f g n key) {first second third : Option Node}
    {k : Bytes} {s : StoredValue} (hk : g k = some s) (hne : k ≠ key) :
    ∃ m, m ≤ Decimal.maxU32 ∧ Keeps (setSlot f n first second third) m k s := by
  obtain ⟨m, hm, hkept⟩ := h.held k s hk
  have hmn : m ≠ n := fun heq => hne ((h.apart hslot hkept hk).mpr heq)
  exact ⟨m, hm, (keeps_setSlot hmn).mpr hkept⟩

theorem named_setSlot (h : Holds f g) (hslot : Suits f g n key) {first second third : Option Node}
    (stored : Option StoredValue) {x : String} (hx : (setSlot f n first second third x).isSome)
    {stem : String} (hstem : Text.stemAndExtension x = (stem, some keyExtension))
    (hne : x ≠ name n keyExtension) :
    ∃ m k s, m ≤ Decimal.maxU32 ∧ x = name m keyExtension ∧ update g key stored k = some s ∧
      Keeps (setSlot f n first second third) m k s := by
  -- with this extension it is no other file of the slot either
  have hother : ∀ extension ∈ extensions, x ≠ name n extension := by
    rintro extension hext rfl
    rw [stemAndExtension_name n (dotless_of_mem hext), Prod.mk.injEq, Option.some.injEq] at hstem
    exact hne (by rw [hstem.2])
  rw [setSlot_other hother] at hx
  obtain ⟨m, k, s, hm, rfl, hk, hkept⟩ := h.named x hx stem hstem
  have hmn : m ≠ n := by
    rintro rfl
    exact hne rfl
  have hkk : k ≠ key := fun heq => hmn ((h.apart hslot hkept hk).mp heq)
  refine ⟨m, k, s, hm, rfl, ?_, (keeps_setSlot hmn).mpr hkept⟩
  rw [Function.update_of_ne hkk, hk]

/-- No key gets a second slot from one that is given its own key, or none. -/
theorem once_setSlot (h : Holds f g) (hslot : Suits f g n key) {first second third : Option Node}
    (hfirst : ∀ k, first = some (.file (.bytes k)) → k = key) (a b : Nat) (k : Bytes)
    (ha : setSlot f n first second third (name a keyExtension) = some (.file (.bytes k)))
    (hb : setSlot f n first second third (name b keyExtension) = some (.file (.bytes k))) :
    a = b := by
  have hin : ∀ {m}, setSlot f n first second third (name m keyExtension) =
        some (.file (.bytes k)) →
      m = n ∧ k = key ∨ k ≠ key ∧ f (name m keyExtension) = some (.file (.bytes k)) := by
    intro m hm
    by_cases hmn : m = n
    · rw [hmn, setSlot_key] at hm
      exact .inl ⟨hmn, hfirst k hm⟩
    · rw [setSlot_of_ne hmn dotless_key] at hm
      obtain ⟨_, k', s, hk', hkept⟩ := h.keeps (n := m) (by rw [hm]; rfl)
      obtain rfl : k' = k := by simpa [hkept.key] using hm
      exact .inr ⟨fun heq => hmn ((h.apart hslot hkept hk').mp heq), hm⟩
  rcases hin ha with ⟨rfl, hk⟩ | ⟨hk, ha'⟩
  · rcases hin hb with ⟨rfl, _⟩ | ⟨hk', _⟩
    · rfl
    · exact absurd hk hk'
  · rcases hin hb with ⟨_, hk'⟩ | ⟨_, hb'⟩
    · exact absurd hk' hk
    · exact h.once a b k ha' hb'

/-- Store in a slot that suits the key. -/
theorem set (h : Holds f g) (key : Bytes) (hn : n ≤ Decimal.maxU32)
    (hslot : Suits f g n key) (stored : StoredValue) :
    Holds (setSlot f n (some (.file (.bytes key))) (some (.file (.bytes stored.value)))
      (some (.file (.bytes (Utf8.encode stored.correlation))))) (update g key (some stored)) := by
  have hkeeps : Keeps (setSlot f n (some (.file (.bytes key))) (some (.file (.bytes stored.value)))
      (some (.file (.bytes (Utf8.encode stored.correlation))))) n key stored :=
    ⟨setSlot_key, setSlot_value, setSlot_correlation⟩
  constructor
  · intro k s hk
    by_cases hkk : k = key
    · subst hkk
      rw [Function.update_self, Option.some.injEq] at hk
      subst hk
      exact ⟨n, hn, hkeeps⟩
    · rw [Function.update_of_ne hkk] at hk
      exact h.held_setSlot hslot hk hkk
  · intro x hx stem hstem
    by_cases hxn : x = name n keyExtension
    · exact ⟨n, key, stored, hn, hxn, Function.update_self .., hkeeps⟩
    · exact h.named_setSlot hslot _ hx hstem hxn
  · exact setSlot_files h.files (by simp) (by simp) (by simp)
  · exact h.once_setSlot hslot (by simp)

/-- Without a key file a slot counts for nothing, whatever becomes of its other files. -/
theorem vacate (h : Holds f g) (hslot : Suits f g n key) {value correlation : Option Node}
    (hv : value ≠ some .directory) (hc : correlation ≠ some .directory) :
    Holds (setSlot f n none value correlation) (update g key none) := by
  constructor
  · intro k s hk
    have hkk : k ≠ key := by
      rintro rfl
      rw [Function.update_self] at hk
      cases hk
    rw [Function.update_of_ne hkk] at hk
    exact h.held_setSlot hslot hk hkk
  · intro x hx stem hstem
    have hxn : x ≠ name n keyExtension := by
      rintro rfl
      rw [setSlot_key] at hx
      cases hx
    exact h.named_setSlot hslot none hx hstem hxn
  · exact setSlot_files h.files (by simp) hv hc
  · exact h.once_setSlot hslot nofun

/-- There are no more slots in use than keys. -/
theorem length_le (h : Holds f g) {slots : List Nat} (hslots : slots.Pairwise (· < ·))
    (hmem : ∀ n ∈ slots, (f (name n keyExtension)).isSome) {live : Finset Bytes}
    (hlive : ∀ k, (g k).isSome → k ∈ live) : slots.length ≤ live.card := by
  have hnodup : slots.Nodup := hslots.imp fun hlt heq => by omega
  have hkeys : ∀ n ∈ slots, ∃ k ∈ live, f (name n keyExtension) = some (.file (.bytes k)) := by
    intro n hn
    obtain ⟨_, k, s, hk, hkept⟩ := h.keeps (hmem n hn)
    exact ⟨k, hlive k (by rw [hk]; rfl), hkept.key⟩
  choose! k hk hfile using hkeys
  rw [← List.toFinset_card_of_nodup hnodup]
  apply Finset.card_le_card_of_injOn k
  · intro n hn
    exact hk n (List.mem_toFinset.mp hn)
  · intro a ha b hb heq
    have ha' := hfile a (List.mem_toFinset.mp ha)
    have hb' := hfile b (List.mem_toFinset.mp hb)
    exact h.once a b (k a) ha' (by rw [heq]; exact hb')

end Holds

section Directory

variable {t : FileTree} {path dir : Path} {v : Path → Option Node} {l : Location}
  {g : Bytes → Option StoredValue}

theorem plain_name {n : Nat} {extension : String} (hdir : FileTree.Plain dir)
    (h : Dotless extension) (hne : extension ≠ "") :
    FileTree.Plain (dir ++ [name n extension]) := by
  intro x hx
  cases List.mem_append.mp hx with
  | inl hx => exact hdir x hx
  | inr hx => rw [List.mem_singleton.mp hx]; exact name_ne_dots n h hne

theorem readAt_ok (ht : t.Shows path v) (hl : l.path = path ++ dir) (hdir : FileTree.Plain dir)
    {n : Nat} {extension : String} (hext : Dotless extension) (hne : extension ≠ "")
    {data : Bytes} (hfile : v (dir ++ [name n extension]) = some (.file (.bytes data))) :
    readAt t (file l n extension) = .ok data := by
  have hread := ht.read_eq (plain_name hdir hext hne) hfile
  rw [readAt, file_path, hl, List.append_assoc, hread]
  rfl

/-- The slots with key files are found in ascending order, if all key files are those of slots. -/
theorem scan_numbered (ht : t.Shows path v) (hl : l.path = path ++ dir) (hdir : FileTree.Plain dir)
    (hthere : v dir = some .directory) (hnumbered : ∀ x, (v (dir ++ [x])).isSome → Numbered x) :
    ∃ slots, scan t l = .ok slots ∧ slots.Pairwise (· < ·) ∧
      ∀ n, n ∈ slots ↔ n ≤ Decimal.maxU32 ∧ (v (dir ++ [name n keyExtension])).isSome := by
  obtain ⟨names, hlist, _, hnames⟩ := ht.list_eq hdir hthere
  obtain ⟨slots, hscan, hslots, hmem⟩ :=
    scanNames_ok l (fun x hx => hnumbered x ((hnames x).mp hx)) List.Pairwise.nil
  refine ⟨slots, ?_, hslots, fun n => ?_⟩
  · simp only [scan, hl, hlist, hscan]
  · rw [hmem, hnames, or_iff_right List.not_mem_nil]

/-- If a scan succeeds, all key files are those of slots. -/
theorem numbered_of_scan (ht : t.Shows path v) (hl : l.path = path ++ dir)
    (hdir : FileTree.Plain dir) (hthere : v dir = some .directory) {slots : List Nat}
    (h : scan t l = .ok slots) {x : String} (hx : (v (dir ++ [x])).isSome) : Numbered x := by
  obtain ⟨names, hlist, _, hnames⟩ := ht.list_eq hdir hthere
  simp only [scan, hl, hlist] at h
  exact numbered_of_scanNames h x ((hnames x).mpr hx)

/-- What a scan that succeeds has found. -/
theorem of_scan (ht : t.Shows path v) (hl : l.path = path ++ dir) (hdir : FileTree.Plain dir)
    (hthere : v dir = some .directory) {slots : List Nat} (h : scan t l = .ok slots) :
    slots.Pairwise (· < ·) ∧
      ∀ n, n ∈ slots ↔ n ≤ Decimal.maxU32 ∧ (v (dir ++ [name n keyExtension])).isSome := by
  obtain ⟨slots', hscan, hslots⟩ :=
    scan_numbered ht hl hdir hthere fun _ => numbered_of_scan ht hl hdir hthere h
  rw [hscan] at h
  rwa [← Except.ok.inj h]

/-- The slots in use are found in ascending order. -/
theorem scan_ok (ht : t.Shows path v) (hl : l.path = path ++ dir) (hdir : FileTree.Plain dir)
    (hthere : v dir = some .directory) (h : Holds (fun x => v (dir ++ [x])) g) :
    ∃ slots, scan t l = .ok slots ∧ slots.Pairwise (· < ·) ∧
      ∀ n, n ∈ slots ↔ (v (dir ++ [name n keyExtension])).isSome := by
  obtain ⟨slots, hscan, hslots, hmem⟩ := scan_numbered ht hl hdir hthere fun x => h.numbered
  refine ⟨slots, hscan, hslots, fun n => ?_⟩
  rw [hmem, and_iff_right_iff_imp]
  exact fun hn => (h.keeps hn).1

/-- The slot holds a key other than this one. -/
def Other (t : FileTree) (l : Location) (key : Bytes) (n : Nat) : Prop :=
  ∃ held, readAt t (file l n keyExtension) = .ok held ∧ held ≠ key

/-- The first slot that holds a key comes after slots that hold others. -/
theorem of_find_some {key : Bytes} {slots : List Nat} {n : Nat}
    (h : find t l key slots = .ok (some n)) :
    ∃ before after, slots = before ++ n :: after ∧ (∀ m ∈ before, Other t l key m) ∧
      readAt t (file l n keyExtension) = .ok key := by
  induction slots with
  | nil => cases h
  | cons m rest ih =>
    rw [find] at h
    split at h
    · cases h
    · next held hread =>
      split at h
      · next hheld =>
        cases h
        exact ⟨[], rest, rfl, nofun, hheld ▸ hread⟩
      · next hne =>
        obtain ⟨before, after, rfl, hbefore, hkey⟩ := ih h
        refine ⟨m :: before, after, rfl, fun k hk => ?_, hkey⟩
        rcases List.mem_cons.mp hk with rfl | hk
        · exact ⟨held, hread, hne⟩
        · exact hbefore k hk

theorem of_find_none {key : Bytes} {slots : List Nat} (h : find t l key slots = .ok none) :
    ∀ m ∈ slots, Other t l key m := by
  induction slots with
  | nil => nofun
  | cons m rest ih =>
    rw [find] at h
    split at h
    · cases h
    · next held hread =>
      split at h
      · cases h
      · next hne =>
        intro k hk
        rcases List.mem_cons.mp hk with rfl | hk
        · exact ⟨held, hread, hne⟩
        · exact ih h k hk

/-- The key is found in a slot that keeps it, or in none. -/
theorem find_ok (ht : t.Shows path v) (hl : l.path = path ++ dir) (hdir : FileTree.Plain dir)
    (h : Holds (fun x => v (dir ++ [x])) g) (key : Bytes) {slots : List Nat}
    (hslots : ∀ n ∈ slots, (v (dir ++ [name n keyExtension])).isSome) :
    (∃ n stored, n ≤ Decimal.maxU32 ∧ g key = some stored ∧
      Keeps (fun x => v (dir ++ [x])) n key stored ∧ find t l key slots = .ok (some n)) ∨
    (find t l key slots = .ok none ∧
      ∀ n ∈ slots, v (dir ++ [name n keyExtension]) ≠ some (.file (.bytes key))) := by
  induction slots with
  | nil => exact .inr ⟨rfl, by simp⟩
  | cons n rest ih =>
    obtain ⟨hn, held, stored, hg, hkeeps⟩ := h.keeps (hslots n List.mem_cons_self)
    have hread := readAt_ok ht hl hdir dotless_key (by decide) hkeeps.key
    rw [find, hread]
    by_cases hheld : held = key
    · subst hheld
      exact .inl ⟨n, stored, hn, hg, hkeeps, by simp⟩
    · simp only [if_neg hheld]
      refine (ih fun m hm => hslots m (List.mem_cons_of_mem _ hm)).imp_right fun hnone => ?_
      refine ⟨hnone.1, fun m hm => ?_⟩
      cases List.mem_cons.mp hm with
      | inl heq =>
        rw [heq, show v (dir ++ [name n keyExtension]) = _ from hkeeps.key]
        simpa using hheld
      | inr hm => exact hnone.2 m hm

end Directory

end KeyedLog.Slot
