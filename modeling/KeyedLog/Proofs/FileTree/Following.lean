import KeyedLog.Proofs.FileTree.WellFormed

/-!
# Where names lead

Names that lead all the way through directories and links are followed alike whatever comes after
them, so a path below a directory is looked up as if it started there. Below a directory without
links the place is the path itself.
-/
namespace KeyedLog.FileTree

/-- The names lead from one place to another through directories and links, `links` of which may
be gone through at the start and `left` are left over in the end. -/
inductive Follows (node? : Path → Option Node) : Nat → Path → Path → Nat → Path → Prop where
  | done {links here} : Follows node? links here [] links here
  | up {links here rest left there} : Follows node? links here.dropLast rest left there →
      Follows node? links here (".." :: rest) left there
  | into {links here name rest left there} : name ≠ ".." →
      node? (here ++ [name]) = some .directory →
      Follows node? links (here ++ [name]) rest left there →
      Follows node? links here (name :: rest) left there
  | link {links here name target rest left there} : name ≠ ".." →
      node? (here ++ [name]) = some (.link target) →
      Follows node? links here (Path.ofText target ++ rest) left there →
      Follows node? (links + 1) here (name :: rest) left there

namespace Follows

variable {links left : Nat} {here there path : Path}

/-- More nodes make no difference to names that lead all the way. -/
theorem mono {f g : Path → Option Node} (hfg : ∀ p node, f p = some node → g p = some node)
    (h : Follows f links here path left there) : Follows g links here path left there := by
  induction h with
  | done => exact .done
  | up _ ih => exact .up ih
  | into hname hnode _ ih => exact .into hname (hfg _ _ hnode) ih
  | link hname hnode _ ih => exact .link hname (hfg _ _ hnode) ih

/-- What comes after the names is walked from where they lead. -/
theorem walk_append {t : FileTree} (h : Follows t.node? links here path left there)
    (followLast : Bool) {rest : Path} (hrest : rest ≠ []) :
    t.walk followLast links here (path ++ rest) = t.walk followLast left there rest := by
  induction h with
  | done => rw [List.nil_append]
  | up _ ih => rw [List.cons_append, walk, if_pos rfl, ih]
  | into hname hnode _ ih =>
    rw [List.cons_append, walk, if_neg hname]
    simp only [hnode, ih]
  | @link _ _ _ _ more _ _ hname hnode _ ih =>
    have hmore : ¬(more ++ rest = [] ∧ ¬followLast = true) := by simp [hrest]
    rw [List.cons_append, walk, if_neg hname]
    simp only [hnode, if_neg hmore, ← List.append_assoc, ih]

theorem walk_eq {t : FileTree} (h : Follows t.node? links here path left there) :
    t.walk true links here path = .ok there := by
  induction h with
  | done => rw [walk]
  | up _ ih => rw [walk, if_pos rfl, ih]
  | into hname hnode _ ih =>
    rw [walk, if_neg hname]
    simp only [hnode, ih]
  | link hname hnode _ ih =>
    rw [walk, if_neg hname]
    simp [hnode, ih]

/-- The first of the names lead somewhere as well. -/
theorem of_append {f : Path → Option Node} {first rest : Path}
    (h : Follows f links here (first ++ rest) left there) :
    ∃ left there, Follows f links here first left there := by
  generalize hpath : first ++ rest = path at h
  induction h generalizing first with
  | done =>
    obtain ⟨rfl, -⟩ := List.append_eq_nil_iff.mp hpath
    exact ⟨_, _, .done⟩
  | up _ ih =>
    cases first with
    | nil => exact ⟨_, _, .done⟩
    | cons name first =>
      obtain ⟨rfl, htail⟩ := List.cons.inj hpath
      obtain ⟨_, _, hfirst⟩ := ih htail
      exact ⟨_, _, .up hfirst⟩
  | into hname hnode _ ih =>
    cases first with
    | nil => exact ⟨_, _, .done⟩
    | cons name first =>
      obtain ⟨rfl, htail⟩ := List.cons.inj hpath
      obtain ⟨_, _, hfirst⟩ := ih htail
      exact ⟨_, _, .into hname hnode hfirst⟩
  | @link _ _ _ target _ _ _ hname hnode _ ih =>
    cases first with
    | nil => exact ⟨_, _, .done⟩
    | cons name first =>
      obtain ⟨rfl, rfl⟩ := List.cons.inj hpath
      have hpath : (Path.ofText target ++ first) ++ rest = _ := List.append_assoc ..
      obtain ⟨_, _, hfirst⟩ := ih hpath
      exact ⟨_, _, .link hname hnode hfirst⟩

/-- Names that lead all the way lead from directory to directory. -/
theorem directory {t : FileTree} (hwell : t.WellFormed) (hhere : t.node? here = some .directory)
    (h : Follows t.node? links here path left there) : t.node? there = some .directory := by
  induction h with
  | done => exact hhere
  | up _ ih => exact ih (hwell.parent hhere)
  | into _ hnode _ ih => exact ih hnode
  | link _ _ _ ih => exact ih hhere

end Follows

/-- A walk that ends in a directory has followed all its names. -/
theorem follows_of_walk {t : FileTree} {links : Nat} {here path there : Path}
    (h : t.walk true links here path = .ok there) (hdir : t.node? there = some .directory) :
    ∃ left, Follows t.node? links here path left there := by
  generalize hf : true = followLast at h
  induction links, here, path using walk.induct t followLast with
  | case1 links here =>
    rw [walk] at h
    cases h
    exact ⟨links, .done⟩
  | case2 links here rest ih =>
    rw [walk, if_pos rfl] at h
    obtain ⟨left, hfollows⟩ := ih h
    exact ⟨left, .up hfollows⟩
  | case3 links here name hname target hnode =>
    rw [walk, if_neg hname] at h
    simp only [target, hnode, if_true, Except.ok.injEq] at h
    rw [← h, hnode] at hdir
    cases hdir
  | case4 links here name rest hname target hnode hrest =>
    rw [walk, if_neg hname] at h
    simp only [target, hnode, if_neg hrest] at h
    cases h
  | case5 links here name rest hname target hnode ih =>
    rw [walk, if_neg hname] at h
    simp only [target, hnode] at h
    obtain ⟨left, hfollows⟩ := ih h
    exact ⟨left, .into hname hnode hfollows⟩
  | case6 links here name hname target content hnode =>
    rw [walk, if_neg hname] at h
    simp only [target, hnode, if_true, Except.ok.injEq] at h
    rw [← h, hnode] at hdir
    cases hdir
  | case7 links here name rest hname target content hnode hrest =>
    rw [walk, if_neg hname] at h
    simp only [target, hnode, if_neg hrest] at h
    cases h
  | case8 links here name rest hname target text hnode hlast =>
    simp [← hf] at hlast
  | case9 here name rest hname target text hnode hlast =>
    rw [walk, if_neg hname] at h
    simp only [target, hnode, if_neg hlast] at h
    cases h
  | case10 here name rest hname target text hnode hlast links ih =>
    rw [walk, if_neg hname] at h
    simp only [target, hnode, if_neg hlast] at h
    obtain ⟨left, hfollows⟩ := ih h
    exact ⟨left, .link hname hnode hfollows⟩

/-! ## Below a directory without links -/

/-- Names that stand for themselves. -/
def Plain (names : Path) : Prop := ∀ name ∈ names, name ≠ ".."

theorem Plain.tail {name : String} {rest : Path} (h : Plain (name :: rest)) : Plain rest :=
  fun x hx => h x (List.mem_cons_of_mem _ hx)

section Below

variable {t : FileTree} {here : Path} (hwell : t.WellFormed)
  (hlinks : ∀ rest target, t.node? (here ++ rest) ≠ some (.link target))

include hlinks in
private theorem noLinks_below {name : String} (rest : Path) (target : String) :
    t.node? ((here ++ [name]) ++ rest) ≠ some (.link target) := by
  rw [List.append_assoc]
  exact hlinks _ target

include hwell hlinks in
/-- Where the directories are there, the path is the place. -/
theorem walk_below {names : Path} (hnames : Plain names)
    (hparent : t.node? (here ++ names.dropLast) = some .directory) (followLast : Bool)
    (links : Nat) : t.walk followLast links here names = .ok (here ++ names) := by
  induction names generalizing here with
  | nil => rw [walk, List.append_nil]
  | cons name rest ih =>
    have hname : name ≠ ".." := hnames name List.mem_cons_self
    have hplace : here ++ name :: rest = (here ++ [name]) ++ rest := by simp
    rw [walk, if_neg hname]
    cases rest with
    | nil =>
      cases hnode : t.node? (here ++ [name]) with
      | none => simp [hnode]
      | some node =>
        cases node with
        | directory =>
          simp only [hnode]
          rw [walk]
        | file content => simp [hnode]
        | link target => exact absurd hnode (hlinks _ target)
    | cons second rest =>
      have hdrop : here ++ (name :: second :: rest).dropLast =
          (here ++ [name]) ++ (second :: rest).dropLast := by simp
      rw [hdrop] at hparent
      have hthere : t.node? (here ++ [name]) = some .directory := by
        by_cases hnil : (second :: rest).dropLast = []
        · simpa [hnil] using hparent
        · exact hwell.ancestor _ hnil hparent
      simp only [hthere, hplace]
      exact ih (noLinks_below hlinks) hnames.tail hparent

include hlinks in
/-- Where one of the directories is missing, the walk fails. -/
theorem walk_below_missing {names : Path} (hnames : Plain names)
    (hhere : t.node? here = some .directory)
    (hparent : t.node? (here ++ names.dropLast) ≠ some .directory) (followLast : Bool)
    (links : Nat) : ∃ e, t.walk followLast links here names = .error e := by
  induction names generalizing here with
  | nil => exact absurd (by simpa using hhere) hparent
  | cons name rest ih =>
    have hname : name ≠ ".." := hnames name List.mem_cons_self
    rw [walk, if_neg hname]
    cases rest with
    | nil => exact absurd (by simpa using hhere) hparent
    | cons second rest =>
      cases hnode : t.node? (here ++ [name]) with
      | none => exact ⟨.notFound, by simp [hnode]⟩
      | some node =>
        cases node with
        | directory =>
          have hdrop : here ++ (name :: second :: rest).dropLast =
              (here ++ [name]) ++ (second :: rest).dropLast := by simp
          rw [hdrop] at hparent
          simp only [hnode]
          exact ih (noLinks_below hlinks) hnames.tail hnode hparent
        | file content => exact ⟨.notDirectory, by simp [hnode]⟩
        | link target => exact absurd hnode (hlinks _ target)

end Below

end KeyedLog.FileTree
