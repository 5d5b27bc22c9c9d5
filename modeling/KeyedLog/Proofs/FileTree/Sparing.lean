import KeyedLog.Proofs.FileTree.Stepping

/-!
# What steps leave alone

Directories that are made and files that are written on the way to a directory or below it leave
everything else as it is: what is found there, and what is listed. This is so as well if not all of
the steps come out well.
-/
namespace KeyedLog.FileTree

/-- Names that lie neither on the way to a directory nor below it. -/
structure Apart (dir names : Path) : Prop where
  aside : ¬names <+: dir
  outside : ¬dir <+: names

theorem Apart.below {dir names : Path} (h : Apart dir names) (rest : Path) :
    Apart dir (names ++ rest) where
  aside := fun hpre => h.aside ((List.prefix_append names rest).trans hpre)
  outside := fun hpre => (List.prefix_or_prefix_of_prefix hpre (List.prefix_append names rest)).elim
    h.outside h.aside

/-- Names that differ at first lead apart. -/
theorem apart_of_ne {x y : String} (h : x ≠ y) (dir names : Path) :
    Apart (x :: dir) (y :: names) where
  aside := fun hpre => h (List.cons_prefix_cons.mp hpre).1.symm
  outside := fun hpre => h (List.cons_prefix_cons.mp hpre).1

/-- A step that makes a directory or writes a file, on the way to a directory or below it. -/
inductive Step.Within (path dir : Path) : Step → Prop where
  | makeDirectory {l names} : l.path = path ++ names → names ≠ [] → Plain names →
      ¬Apart dir names → Within path dir (.makeDirectory l)
  | write {l names data} : l.path = path ++ names → names ≠ [] → Plain names →
      ¬Apart dir names → Within path dir (.write l data)

/-- A tree that shows the same as an earlier one apart from a directory. -/
structure Spares (path place dir : Path) (t s : FileTree) : Prop where
  rooted : s.Rooted path place
  found : ∀ names, Apart dir names → s.node? (place ++ names) = t.node? (place ++ names)
  listed : ∀ names, Apart dir names → s.namesAt (place ++ names) = t.namesAt (place ++ names)
  plain : ∀ names, (s.node? (place ++ names)).isSome →
    Plain names ∨ (t.node? (place ++ names)).isSome

theorem namesAt_put {q p : Path} (hq : q.dropLast ≠ p) (node : Node) (t : FileTree) :
    namesAt (Assoc.put q node t) p = t.namesAt p := by
  have hnone : nameIn? p q = none := if_neg hq
  induction t with
  | nil => simp [Assoc.put, namesAt, hnone]
  | cons entry rest ih =>
    rw [Assoc.put]
    split
    · next heq => simp [namesAt, ← heq, hnone]
    · simp only [namesAt, List.filterMap_cons] at ih ⊢
      rw [ih]

section

variable {t s u : FileTree} {path place dir names : Path}

theorem Rooted.shows (h : t.Rooted path place) :
    t.ShowsAt path place fun names => t.node? (place ++ names) :=
  ⟨h, fun _ => rfl⟩

/-- A whole tree without links. -/
theorem WellFormed.rooted (h : t.WellFormed) (hlinks : ∀ p target, (p, .link target) ∉ t) :
    t.Rooted [] [] where
  wellFormed := h
  directory := node?_root t
  leads := ⟨fun _ => none, linkLimit, .done, nofun⟩
  plain := by
    intro rest target hlink
    by_cases hrest : rest = []
    · rw [hrest, List.append_nil, node?_root] at hlink
      cases hlink
    · rw [List.nil_append, node?_of_ne hrest] at hlink
      exact hlinks _ _ (Assoc.mem_of_get? hlink)

/-- A path below the root leads somewhere only if its directories are there. -/
theorem Rooted.parent_of_walk (h : t.Rooted path place) (hne : names ≠ []) (hnames : Plain names)
    {followLast : Bool} {p : Path}
    (hwalk : t.walk followLast linkLimit [] (path ++ names) = .ok p) :
    t.node? (place ++ names.dropLast) = some .directory ∧ p = place ++ names := by
  by_cases hparent : t.node? (place ++ names.dropLast) = some .directory
  · rw [h.walk_ok hnames hne hparent followLast] at hwalk
    exact ⟨hparent, (Except.ok.inj hwalk).symm⟩
  · obtain ⟨e, herror⟩ := h.walk_error hnames hne hparent followLast
    rw [herror] at hwalk
    cases hwalk

/-- A directory that can be listed is there, and lists what lies in it. -/
theorem Rooted.of_list (h : t.Rooted path place) (hnames : Plain names) {listed : List String}
    (hlist : t.list (path ++ names) = .ok listed) :
    t.node? (place ++ names) = some .directory ∧ listed = t.namesAt (place ++ names) := by
  have hplace : ∀ q, t.place (path ++ names) = .ok q → q = place ++ names := by
    intro q hq
    by_cases hne : names = []
    · obtain ⟨left, hf⟩ := h.follows
      rw [hne, List.append_nil] at hq ⊢
      exact Except.ok.inj (hq.symm.trans hf.walk_eq)
    · exact (h.parent_of_walk hne hnames hq).2
  rw [list] at hlist
  split at hlist
  · cases hlist
  · next q hq =>
    obtain rfl := hplace q hq
    split at hlist
    · next hdir => exact ⟨hdir, (Except.ok.inj hlist).symm⟩
    · cases hlist
    · cases hlist

namespace Spares

theorem refl (h : t.Rooted path place) : Spares path place dir t t :=
  ⟨h, fun _ _ => rfl, fun _ _ => rfl, fun _ => .inr⟩

theorem trans (h : Spares path place dir t s) (h' : Spares path place dir s u) :
    Spares path place dir t u where
  rooted := h'.rooted
  found := fun names ha => (h'.found names ha).trans (h.found names ha)
  listed := fun names ha => (h'.listed names ha).trans (h.listed names ha)
  plain := fun names hsome => (h'.plain names hsome).elim .inl (h.plain names)

theorem put (h : t.Rooted path place) (hne : names ≠ []) (hnames : Plain names)
    (hwithin : ¬Apart dir names) {node : Node}
    (hparent : t.node? (place ++ names.dropLast) = some .directory)
    (hkeep : t.node? (place ++ names) = some .directory → node = .directory)
    (hnode : ∀ target, node ≠ .link target) :
    Spares path place dir t (Assoc.put (place ++ names) node t) := by
  have hplace : place ++ names ≠ [] := by simp [hne]
  refine ⟨(h.shows.put hne node hparent hkeep hnode).rooted, ?_, ?_, ?_⟩
  · intro other hother
    rw [node?_put hplace, if_neg]
    rw [List.append_cancel_left_eq]
    rintro rfl
    exact hwithin hother
  · intro other hother
    apply namesAt_put
    rw [List.dropLast_append_of_ne_nil hne, ne_eq, List.append_cancel_left_eq]
    rintro rfl
    rw [← List.dropLast_append_getLast hne] at hwithin
    exact hwithin (hother.below _)
  · intro other hsome
    rw [node?_put hplace] at hsome
    split at hsome
    · next heq =>
      rw [List.append_cancel_left_eq] at heq
      exact .inl (heq ▸ hnames)
    · exact .inr hsome

theorem apply (h : t.Rooted path place) {step : Step} (hstep : step.Within path dir)
    (happly : t.apply step = .ok s) : Spares path place dir t s := by
  cases hstep with
  | makeDirectory hl hne hnames hwithin =>
    simp only [FileTree.apply, makeDirectory, entryPlace, hl] at happly
    split at happly
    · rw [← Except.ok.inj happly]
      exact refl h
    · split at happly
      · cases happly
      · next hwalk =>
        obtain ⟨hparent, rfl⟩ := h.parent_of_walk hne hnames hwalk
        split at happly
        · cases happly
        · rw [← Except.ok.inj happly]
          exact put h hne hnames hwithin hparent (fun _ => rfl) (by simp)
  | write hl hne hnames hwithin =>
    simp only [FileTree.apply, write, writeContent, FileTree.place, hl] at happly
    split at happly
    · cases happly
    · next hwalk =>
      obtain ⟨hparent, rfl⟩ := h.parent_of_walk hne hnames hwalk
      split at happly
      · cases happly
      · next hfree =>
        rw [← Except.ok.inj happly]
        exact put h hne hnames hwithin hparent (absurd · hfree) (by simp)

theorem perform (h : t.Rooted path place) {steps : List Step}
    (hsteps : ∀ step ∈ steps, step.Within path dir) :
    Spares path place dir t (t.perform steps).2 := by
  induction steps generalizing t with
  | nil => exact refl h
  | cons step rest ih =>
    rw [FileTree.perform]
    split
    · exact refl h
    · next happly =>
      have hfirst := apply h (hsteps step List.mem_cons_self) happly
      refine hfirst.trans (ih hfirst.rooted fun step hstep => ?_)
      exact hsteps step (List.mem_cons_of_mem _ hstep)

theorem carryOut (h : t.Rooted path place) {plan : Plan}
    (hsteps : ∀ step ∈ plan.steps, step.Within path dir) :
    Spares path place dir t (t.carryOut plan).2 := by
  rw [carryOut_snd]
  exact perform h hsteps

end Spares

/-! ## The directories that are missing -/

theorem missing_below {done rest p : Path} (hp : p ∈ (t.missingFrom done rest).1) :
    ∃ names, p = done ++ names ∧ names ≠ [] ∧ names <+: rest := by
  induction rest generalizing done with
  | nil => cases hp
  | cons name rest ih =>
    rw [missingFrom] at hp
    split at hp
    · obtain ⟨names, rfl, -, hpre⟩ := ih hp
      exact ⟨name :: names, by simp, by simp, List.cons_prefix_cons.mpr ⟨rfl, hpre⟩⟩
    · cases hp
    · split at hp
      · split at hp
        · cases hp
        · rw [List.mem_cons, List.mem_map] at hp
          rcases hp with rfl | ⟨n, -, rfl⟩
          · exact ⟨[name], rfl, by simp, by simp⟩
          · exact ⟨name :: rest.take (n + 1), by simp, by simp,
              List.cons_prefix_cons.mpr ⟨rfl, List.take_prefix _ _⟩⟩
      · cases hp
    · cases hp

/-- Directories that are made on the way to one below a given directory. -/
theorem Rooted.planDirectory_within (h : t.Rooted path place) {l : Location}
    (hl : l.path = path ++ names) (hnames : Plain names) (hdir : dir <+: names ∨ names <+: dir) :
    ∀ step ∈ (t.planDirectory l).steps, step.Within path dir := by
  intro step hstep
  rw [planDirectory, hl, (show t.Shows path _ from ⟨_, h.shows⟩).missingFrom_root] at hstep
  obtain ⟨p, hp, rfl⟩ := List.mem_map.mp hstep
  obtain ⟨other, rfl, hne, hpre⟩ := missing_below hp
  refine .makeDirectory ?_ hne (fun x hx => hnames x (hpre.subset hx)) ?_
  · rw [Location.path, Path.ofText_empty, List.nil_append]
  · intro hapart
    rcases hdir with hdir | hdir
    · exact (List.prefix_or_prefix_of_prefix hdir hpre).elim hapart.outside hapart.aside
    · exact hapart.aside (hpre.trans hdir)

end

end KeyedLog.FileTree
