import KeyedLog.FileTree.Steps
import KeyedLog.Proofs.Assoc
import Mathlib.Data.List.Induction

/-!
# Well-formed file trees

In a well-formed tree every place is held by one node, which lies in a directory. Each change of
a tree keeps it so, and no observation of such a tree depends on the order in which its
directories list their entries.
-/
namespace KeyedLog.FileTree

structure WellFormed (t : FileTree) : Prop where
  nodup : (t.map Prod.fst).Nodup
  above : ∀ p node, (p, node) ∈ t → p ≠ [] ∧ t.node? p.dropLast = some .directory

@[simp] theorem node?_root (t : FileTree) : t.node? [] = some .directory := rfl

theorem node?_of_ne {p : Path} (h : p ≠ []) (t : FileTree) : t.node? p = Assoc.get? p t := by
  rw [node?, if_neg h]

theorem wellFormed_nil : WellFormed [] where
  nodup := List.nodup_nil
  above := by simp

theorem node?_put {q : Path} (hq : q ≠ []) (node : Node) (t : FileTree) (p : Path) :
    FileTree.node? (Assoc.put q node t) p = if p = q then some node else t.node? p := by
  by_cases hp : p = []
  · subst hp
    rw [if_neg (Ne.symm hq), node?_root, node?_root]
  · rw [node?_of_ne hp, node?_of_ne hp]
    split
    · next h => rw [h, Assoc.get?_put_self]
    · next h => exact Assoc.get?_put_of_ne h _ _

theorem node?_erase {q : Path} (hq : q ≠ []) (t : FileTree) (p : Path) :
    FileTree.node? (Assoc.erase q t) p = if p = q then none else t.node? p := by
  by_cases hp : p = []
  · subst hp
    rw [if_neg (Ne.symm hq), node?_root, node?_root]
  · rw [node?_of_ne hp, node?_of_ne hp]
    split
    · next h => rw [h, Assoc.get?_erase_self]
    · next h => exact Assoc.get?_erase_of_ne h _

/-- A directory has no more entries than there are nodes. -/
theorem length_of_list {t : FileTree} {p : Path} {names : List String} (h : t.list p = .ok names) :
    names.length ≤ t.length := by
  rw [list] at h
  split at h
  · cases h
  · split at h
    · rw [← Except.ok.inj h]
      exact List.length_filterMap_le _ t
    · cases h
    · cases h

namespace WellFormed

variable {t : FileTree}

theorem mem_iff (h : t.WellFormed) {p : Path} {node : Node} :
    (p, node) ∈ t ↔ p ≠ [] ∧ t.node? p = some node := by
  constructor
  · intro hmem
    have hp := (h.above p node hmem).1
    exact ⟨hp, by rw [node?_of_ne hp]; exact (Assoc.get?_eq_some_iff h.nodup).mpr hmem⟩
  · rintro ⟨hp, hnode⟩
    rw [node?_of_ne hp] at hnode
    exact Assoc.mem_of_get? hnode

/-- Whatever there is lies in a directory. -/
theorem parent (h : t.WellFormed) {p : Path} {node : Node} (hnode : t.node? p = some node) :
    t.node? p.dropLast = some .directory := by
  by_cases hp : p = []
  · subst hp
    rfl
  · exact (h.above p node (h.mem_iff.mpr ⟨hp, hnode⟩)).2

/-- Everything on the way to a place is a directory. -/
theorem ancestor (h : t.WellFormed) {p : Path} (rest : Path) {node : Node} (hrest : rest ≠ [])
    (hnode : t.node? (p ++ rest) = some node) : t.node? p = some .directory := by
  induction rest using List.reverseRecOn generalizing node with
  | nil => exact absurd rfl hrest
  | append_singleton rest name ih =>
    have hparent := h.parent hnode
    rw [← List.append_assoc, List.dropLast_concat] at hparent
    by_cases hnil : rest = []
    · simpa [hnil] using hparent
    · exact ih hnil hparent

theorem put (h : t.WellFormed) {q : Path} (hq : q ≠ []) {node : Node}
    (hparent : t.node? q.dropLast = some .directory)
    (hkeep : t.node? q = some .directory → node = .directory) :
    WellFormed (Assoc.put q node t) where
  nodup := Assoc.nodup_put h.nodup q node
  above := by
    have hdir : ∀ p, t.node? p = some .directory →
        FileTree.node? (Assoc.put q node t) p = some .directory := by
      intro p hp
      rw [node?_put hq]
      split
      · next heq => rw [hkeep (heq ▸ hp)]
      · exact hp
    intro p m hmem
    cases Assoc.mem_put hmem with
    | inl heq =>
      obtain ⟨rfl, rfl⟩ := Prod.mk.inj heq
      exact ⟨hq, hdir _ hparent⟩
    | inr hmem => exact ⟨(h.above p m hmem).1, hdir _ (h.above p m hmem).2⟩

theorem mem_namesAt (h : t.WellFormed) {place : Path} {name : String} :
    name ∈ t.namesAt place ↔ (t.node? (place ++ [name])).isSome := by
  simp only [namesAt, List.mem_filterMap, Prod.exists, Option.isSome_iff_exists]
  constructor
  · rintro ⟨p, node, hmem, hname⟩
    obtain ⟨hp, hnode⟩ := h.mem_iff.mp hmem
    simp only [nameIn?] at hname
    split at hname
    · next hdrop =>
      have hpath : place ++ [name] = p := by
        rw [← hdrop]
        exact List.dropLast_append_getLast? name hname
      exact ⟨node, by rw [hpath]; exact hnode⟩
    · cases hname
  · rintro ⟨node, hnode⟩
    refine ⟨place ++ [name], node, h.mem_iff.mpr ⟨by simp, hnode⟩, ?_⟩
    simp [nameIn?]

theorem nodup_namesAt (h : t.WellFormed) (place : Path) : (t.namesAt place).Nodup := by
  have hmap : t.namesAt place = (t.map Prod.fst).filterMap (nameIn? place) := by
    rw [List.filterMap_map]
    rfl
  rw [hmap]
  apply h.nodup.filterMap
  intro p q name hp hq
  have hpath : ∀ r, name ∈ nameIn? place r → r = place ++ [name] := by
    intro r hr
    simp only [nameIn?, Option.mem_def] at hr
    split at hr
    · next hdrop =>
      rw [← hdrop]
      exact (List.dropLast_append_getLast? name hr).symm
    · cases hr
  rw [hpath p hp, hpath q hq]

theorem erase (h : t.WellFormed) {q : Path} (hq : q ≠ [])
    (hleaf : t.node? q = some .directory → t.namesAt q = []) :
    WellFormed (Assoc.erase q t) where
  nodup := Assoc.nodup_erase h.nodup q
  above := by
    intro p m hmem
    have hin : (p, m) ∈ t := List.mem_of_mem_filter hmem
    obtain ⟨hp, hparent⟩ := h.above p m hin
    refine ⟨hp, ?_⟩
    rw [node?_erase hq, if_neg ?_]
    · exact hparent
    · intro hdrop
      rw [hdrop] at hparent
      have hname : p.getLast hp ∈ t.namesAt q := by
        rw [h.mem_namesAt, ← hdrop, List.dropLast_append_getLast hp]
        exact Option.isSome_of_mem (h.mem_iff.mp hin).2
      rw [hleaf hparent] at hname
      cases hname

/-- The order of the entries is of no account to what each place holds. -/
theorem node?_perm (h : t.WellFormed) {s : FileTree} (hperm : t.Perm s) (p : Path) :
    s.node? p = t.node? p := by
  by_cases hp : p = []
  · subst hp
    rfl
  · rw [node?_of_ne hp, node?_of_ne hp]
    exact Assoc.get?_perm h.nodup hperm p

theorem perm (h : t.WellFormed) {s : FileTree} (hperm : t.Perm s) : WellFormed s where
  nodup := (hperm.map Prod.fst).nodup_iff.mp h.nodup
  above := by
    intro p node hmem
    rw [h.node?_perm hperm]
    exact h.above p node (hperm.mem_iff.mpr hmem)

/-- A walk from a directory ends in a directory, at an entry of it or at a vacant place in it. -/
theorem walk_parent (h : t.WellFormed) {followLast : Bool} {links : Nat} {here path q : Path}
    (hhere : t.node? here = some .directory) (hwalk : t.walk followLast links here path = .ok q) :
    t.node? q.dropLast = some .directory := by
  induction links, here, path using walk.induct t followLast with
  | case1 links here =>
    rw [walk, Except.ok.injEq] at hwalk
    exact hwalk ▸ h.parent hhere
  | case2 links here rest ih =>
    rw [walk, if_pos rfl] at hwalk
    exact ih (h.parent hhere) hwalk
  | case3 links here name hname target hnode =>
    rw [walk, if_neg hname] at hwalk
    simp only [target, hnode, if_true, Except.ok.injEq] at hwalk
    rw [← hwalk, List.dropLast_concat, hhere]
  | case4 links here name rest hname target hnode hrest =>
    rw [walk, if_neg hname] at hwalk
    simp only [target, hnode, if_neg hrest] at hwalk
    cases hwalk
  | case5 links here name rest hname target hnode ih =>
    rw [walk, if_neg hname] at hwalk
    simp only [target, hnode] at hwalk
    exact ih hnode hwalk
  | case6 links here name hname target content hnode =>
    rw [walk, if_neg hname] at hwalk
    simp only [target, hnode, if_true, Except.ok.injEq] at hwalk
    rw [← hwalk, List.dropLast_concat, hhere]
  | case7 links here name rest hname target content hnode hrest =>
    rw [walk, if_neg hname] at hwalk
    simp only [target, hnode, if_neg hrest] at hwalk
    cases hwalk
  | case8 links here name rest hname target text hnode hlast =>
    rw [walk, if_neg hname] at hwalk
    simp only [target, hnode, if_pos hlast, Except.ok.injEq] at hwalk
    rw [← hwalk, List.dropLast_concat, hhere]
  | case9 here name rest hname target text hnode hlast =>
    rw [walk, if_neg hname] at hwalk
    simp only [target, hnode, if_neg hlast] at hwalk
    cases hwalk
  | case10 here name rest hname target text hnode hlast links ih =>
    rw [walk, if_neg hname] at hwalk
    simp only [target, hnode, if_neg hlast] at hwalk
    exact ih hhere hwalk

theorem makeDirectory (h : t.WellFormed) {p : Path} {s : FileTree}
    (hmake : t.makeDirectory p = .ok s) : s.WellFormed := by
  rw [FileTree.makeDirectory] at hmake
  split at hmake
  · rw [← Except.ok.inj hmake]
    exact h
  · cases hplace : t.entryPlace p with
    | error e => simp [hplace] at hmake
    | ok q =>
      cases hnode : t.node? q with
      | some node => simp [hplace, hnode] at hmake
      | none =>
        simp only [hplace, hnode, Except.ok.injEq] at hmake
        have hq : q ≠ [] := by
          rintro rfl
          cases hnode
        rw [← hmake]
        exact h.put hq (h.walk_parent (node?_root t) hplace) fun _ => rfl

/-- Opening a directory, as far as it goes, keeps a tree in order. -/
theorem perform_makeDirectory (h : t.WellFormed) (paths : List Path) :
    (t.perform (paths.map fun p => .makeDirectory ⟨"", p⟩)).2.WellFormed := by
  induction paths generalizing t with
  | nil => exact h
  | cons p rest ih =>
    rw [List.map_cons, perform]
    cases happly : t.apply (.makeDirectory ⟨"", p⟩) with
    | error e => exact h
    | ok s => exact ih (h.makeDirectory happly)

theorem carryOut_planDirectory (h : t.WellFormed) (l : Location) :
    (t.carryOut (t.planDirectory l)).2.WellFormed := by
  have hperform := h.perform_makeDirectory (t.missingFrom [] l.path).1
  rw [carryOut]
  split
  · next hfail =>
    rw [planDirectory] at hfail
    rw [hfail] at hperform
    exact hperform
  · next hdone =>
    rw [planDirectory] at hdone
    rw [hdone] at hperform
    split <;> exact hperform

end WellFormed

end KeyedLog.FileTree
