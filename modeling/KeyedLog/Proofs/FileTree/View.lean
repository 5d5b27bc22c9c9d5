import KeyedLog.Proofs.FileTree.Following
import Mathlib.Logic.Function.Basic

/-!
# File trees seen from a directory

What lies below a directory without links, as a function of the names that lead there. Looking
something up below the directory reads this function, and each step changes it at one place, so
that a sequence of steps can be followed without the rest of the tree.
-/
namespace KeyedLog

theorem Path.ofText_empty : Path.ofText "" = [] := by decide

theorem Location.path_join (l : Location) (name : String) :
    (l.join name).path = l.path ++ [name] := by
  simp [Location.path, Location.join]

namespace FileTree

/-- A path leads to a directory, on a way that does not touch anything below it, and no links lie
below it. -/
structure Rooted (t : FileTree) (path place : Path) : Prop where
  wellFormed : t.WellFormed
  directory : t.node? place = some .directory
  leads : ∃ f left, Follows f linkLimit [] path left place ∧ ∀ p node, f p = some node →
    t.node? p = some node ∧ ∀ rest, rest ≠ [] → p ≠ place ++ rest
  plain : ∀ rest target, t.node? (place ++ rest) ≠ some (.link target)

namespace Rooted

variable {t : FileTree} {path place : Path}

theorem follows (h : t.Rooted path place) :
    ∃ left, Follows t.node? linkLimit [] path left place := by
  obtain ⟨f, left, hf, hnodes⟩ := h.leads
  exact ⟨left, hf.mono fun p node hp => (hnodes p node hp).1⟩

/-- A path below the root is walked from the root. -/
theorem walk_append (h : t.Rooted path place) (followLast : Bool) {rest : Path}
    (hrest : rest ≠ []) :
    ∃ left, t.walk followLast linkLimit [] (path ++ rest) =
      t.walk followLast left place rest := by
  obtain ⟨left, hf⟩ := h.follows
  exact ⟨left, hf.walk_append followLast hrest⟩

/-- Every part of the path to the root leads to a directory. -/
theorem lookup_prefix (h : t.Rooted path place) {first rest : Path} (hpath : path = first ++ rest) :
    t.lookup first = .ok .directory := by
  obtain ⟨left, hf⟩ := h.follows
  rw [hpath] at hf
  obtain ⟨left', there, hfirst⟩ := hf.of_append
  have hplace : t.place first = .ok there := hfirst.walk_eq
  have hdir := hfirst.directory h.wellFormed (node?_root t)
  simp only [lookup, hplace, hdir]

/-- Where a path below the root leads to, if its directories are there. -/
theorem walk_ok (h : t.Rooted path place) {names : Path} (hnames : Plain names) (hne : names ≠ [])
    (hparent : t.node? (place ++ names.dropLast) = some .directory) (followLast : Bool) :
    t.walk followLast linkLimit [] (path ++ names) = .ok (place ++ names) := by
  obtain ⟨left, hwalk⟩ := h.walk_append followLast hne
  rw [hwalk]
  exact walk_below h.wellFormed h.plain hnames hparent followLast left

theorem walk_error (h : t.Rooted path place) {names : Path} (hnames : Plain names)
    (hne : names ≠ []) (hparent : t.node? (place ++ names.dropLast) ≠ some .directory)
    (followLast : Bool) :
    ∃ e, t.walk followLast linkLimit [] (path ++ names) = .error e := by
  obtain ⟨left, hwalk⟩ := h.walk_append followLast hne
  rw [hwalk]
  exact walk_below_missing h.plain hnames h.directory hparent followLast left

/-- A tree that differs only below the root has the same root. -/
theorem transfer {s : FileTree} (h : t.Rooted path place) (hwell : s.WellFormed)
    (hsame : ∀ p, (∀ rest, rest ≠ [] → p ≠ place ++ rest) → s.node? p = t.node? p)
    (hplain : ∀ rest target, s.node? (place ++ rest) ≠ some (.link target)) :
    s.Rooted path place where
  wellFormed := hwell
  directory := by
    rw [hsame place (by simp)]
    exact h.directory
  leads := by
    obtain ⟨f, left, hf, hnodes⟩ := h.leads
    refine ⟨f, left, hf, fun p node hp => ?_⟩
    obtain ⟨hnode, hout⟩ := hnodes p node hp
    exact ⟨by rw [hsame p hout]; exact hnode, hout⟩
  plain := hplain

end Rooted

/-- What is found below the directory at a place a path leads to, by the names from there on. -/
structure ShowsAt (t : FileTree) (path place : Path) (v : Path → Option Node) : Prop where
  rooted : t.Rooted path place
  view : ∀ names, t.node? (place ++ names) = v names

def Shows (t : FileTree) (path : Path) (v : Path → Option Node) : Prop :=
  ∃ place, t.ShowsAt path place v

namespace Shows

variable {t : FileTree} {path : Path} {v : Path → Option Node} {names : Path}

/-- Below a directory without entries there is nothing. -/
theorem of_empty (hwell : t.WellFormed) (hempty : t.isEmptyDirectory path = true) :
    t.Shows path fun names => if names = [] then some .directory else none := by
  have hlist : t.list path = .ok [] := by
    simp only [isEmptyDirectory] at hempty
    split at hempty
    · next h => exact h
    · cases hempty
  simp only [list] at hlist
  cases hplace : t.place path with
  | error e => simp [hplace] at hlist
  | ok place =>
    cases hnode : t.node? place with
    | none => simp [hplace, hnode] at hlist
    | some node =>
      cases node with
      | file content => simp [hplace, hnode] at hlist
      | link target => simp [hplace, hnode] at hlist
      | directory =>
        simp only [hplace, hnode, Except.ok.injEq] at hlist
        have hnone : ∀ rest, rest ≠ [] → t.node? (place ++ rest) = none := by
          intro rest hrest
          cases rest with
          | nil => exact absurd rfl hrest
          | cons x rest =>
            have hx : t.node? (place ++ [x]) = none := by
              rw [← Option.not_isSome_iff_eq_none, ← hwell.mem_namesAt, hlist]
              exact List.not_mem_nil
            by_cases hnil : rest = []
            · rw [hnil]
              exact hx
            · cases hbelow : t.node? (place ++ x :: rest) with
              | none => rfl
              | some node =>
                rw [List.append_cons] at hbelow
                rw [hwell.ancestor rest hnil hbelow] at hx
                cases hx
        obtain ⟨left, hfollows⟩ := follows_of_walk hplace hnode
        refine ⟨place, ⟨hwell, hnode, ⟨t.node?, left, hfollows, ?_⟩, ?_⟩, ?_⟩
        · intro p node hp
          refine ⟨hp, ?_⟩
          rintro rest hrest rfl
          rw [hnone rest hrest] at hp
          cases hp
        · intro rest target
          by_cases hrest : rest = []
          · rw [hrest, List.append_nil, hnode]
            simp
          · rw [hnone rest hrest]
            simp
        · intro names
          split
          · next hnames => rw [hnames, List.append_nil, hnode]
          · next hnames => exact hnone names hnames

theorem root (h : t.Shows path v) : v [] = some .directory := by
  obtain ⟨place, hroot, hv⟩ := h
  rw [← hv, List.append_nil]
  exact hroot.directory

/-- Whatever is found lies in a directory. -/
theorem parent (h : t.Shows path v) {node : Node} (hnode : v names = some node) :
    v names.dropLast = some .directory := by
  by_cases hne : names = []
  · subst hne
    exact h.root
  · obtain ⟨place, hroot, hv⟩ := h
    rw [← hv] at hnode ⊢
    have hparent := hroot.wellFormed.parent hnode
    rwa [List.dropLast_append_of_ne_nil hne] at hparent

theorem perm {s : FileTree} (h : t.Shows path v) (hperm : t.Perm s) : s.Shows path v := by
  obtain ⟨place, hroot, hv⟩ := h
  have hnode := hroot.wellFormed.node?_perm hperm
  refine ⟨place, hroot.transfer (hroot.wellFormed.perm hperm) (fun p _ => hnode p) ?_, ?_⟩
  · intro rest target
    rw [hnode]
    exact hroot.plain rest target
  · intro names
    rw [hnode]
    exact hv names

theorem lookup_some (h : t.Shows path v) (hnames : Plain names) {node : Node}
    (hnode : v names = some node) : t.lookup (path ++ names) = .ok node := by
  have hparent := h.parent hnode
  obtain ⟨place, hroot, hv⟩ := h
  by_cases hne : names = []
  · subst hne
    rw [← hv, List.append_nil, hroot.directory, Option.some.injEq] at hnode
    rw [List.append_nil, hroot.lookup_prefix (List.append_nil path).symm, hnode]
  · rw [← hv] at hnode hparent
    have hwalk := hroot.walk_ok hnames hne hparent true
    simp only [lookup, FileTree.place, hwalk, hnode]

theorem lookup_none (h : t.Shows path v) (hnames : Plain names) (hnode : v names = none) :
    ∃ e, t.lookup (path ++ names) = .error e ∧
      (v names.dropLast = some .directory → e = .notFound) := by
  have hne : names ≠ [] := by
    rintro rfl
    rw [h.root] at hnode
    cases hnode
  obtain ⟨place, hroot, hv⟩ := h
  rw [← hv] at hnode ⊢
  by_cases hparent : t.node? (place ++ names.dropLast) = some .directory
  · have hwalk := hroot.walk_ok hnames hne hparent true
    exact ⟨.notFound, by simp only [lookup, FileTree.place, hwalk, hnode], fun _ => rfl⟩
  · obtain ⟨e, hwalk⟩ := hroot.walk_error hnames hne hparent true
    exact ⟨e, by simp only [lookup, FileTree.place, hwalk], fun hp => absurd hp hparent⟩

theorem isDirectory_eq (h : t.Shows path v) (hnames : Plain names) :
    t.isDirectory (path ++ names) = decide (v names = some .directory) := by
  cases hnode : v names with
  | none =>
    obtain ⟨e, he, -⟩ := h.lookup_none hnames hnode
    simp [isDirectory, he]
  | some node => cases node <;> simp [isDirectory, h.lookup_some hnames hnode]

theorem exists?_eq (h : t.Shows path v) (hnames : Plain names) :
    t.exists? (path ++ names) = (v names).isSome := by
  cases hnode : v names with
  | none =>
    obtain ⟨e, he, -⟩ := h.lookup_none hnames hnode
    simp [exists?, he]
  | some node => simp [exists?, h.lookup_some hnames hnode]

theorem read_eq (h : t.Shows path v) (hnames : Plain names) {content : Content}
    (hnode : v names = some (.file content)) : t.read (path ++ names) = .ok content.image := by
  simp only [read, h.lookup_some hnames hnode]

/-- A directory lists the names there is something under, each once. -/
theorem list_eq (h : t.Shows path v) (hnames : Plain names) (hnode : v names = some .directory) :
    ∃ listed, t.list (path ++ names) = .ok listed ∧ listed.Nodup ∧
      ∀ x, x ∈ listed ↔ (v (names ++ [x])).isSome := by
  have hparent := h.parent hnode
  obtain ⟨place, hroot, hv⟩ := h
  have hplace : t.place (path ++ names) = .ok (place ++ names) := by
    by_cases hne : names = []
    · obtain ⟨left, hf⟩ := hroot.follows
      rw [hne, List.append_nil, List.append_nil]
      exact hf.walk_eq
    · rw [← hv] at hparent
      exact hroot.walk_ok hnames hne hparent true
  rw [← hv] at hnode
  refine ⟨t.namesAt (place ++ names), by simp only [list, hplace, hnode],
    hroot.wellFormed.nodup_namesAt _, fun x => ?_⟩
  rw [hroot.wellFormed.mem_namesAt, List.append_assoc, hv]

end Shows

end FileTree

end KeyedLog
