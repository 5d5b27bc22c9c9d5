import KeyedLog.Proofs.FileTree.View

/-!
# Steps seen from a directory

What each step of a plan does to what is found below a directory, what creating a directory with all
those above it comes to, and what is found when only some of the steps have been performed.
-/
namespace KeyedLog.FileTree

open Function (update)

namespace ShowsAt

variable {t : FileTree} {path place : Path} {v : Path → Option Node} {names : Path}

/-- The place of an entry whose directory is there. -/
theorem walk (h : t.ShowsAt path place v) (hnames : Plain names) (hne : names ≠ [])
    (hparent : v names.dropLast = some .directory) (followLast : Bool) :
    t.walk followLast linkLimit [] (path ++ names) = .ok (place ++ names) :=
  h.rooted.walk_ok hnames hne (by rw [h.view]; exact hparent) followLast

/-- Put a file or a directory into a directory. -/
theorem put (h : t.ShowsAt path place v) (hne : names ≠ []) (node : Node)
    (hparent : v names.dropLast = some .directory)
    (hkeep : v names = some .directory → node = .directory)
    (hnode : ∀ target, node ≠ .link target) :
    ShowsAt (Assoc.put (place ++ names) node t) path place (update v names (some node)) := by
  have hplace : place ++ names ≠ [] := by simp [hne]
  have hwell : WellFormed (Assoc.put (place ++ names) node t) := by
    apply h.rooted.wellFormed.put hplace
    · rw [List.dropLast_append_of_ne_nil hne, h.view]
      exact hparent
    · rw [h.view]
      exact hkeep
  constructor
  · apply h.rooted.transfer hwell
    · intro p hout
      rw [node?_put hplace, if_neg (hout names hne)]
    · intro rest target
      rw [node?_put hplace]
      split
      · simpa using hnode target
      · exact h.rooted.plain rest target
  · intro other
    rw [node?_put hplace, Function.update_apply]
    simp only [List.append_cancel_left_eq, h.view]

/-- Take a file or an empty directory away. -/
theorem erase (h : t.ShowsAt path place v) (hne : names ≠ [])
    (hleaf : v names = some .directory → ∀ x, v (names ++ [x]) = none) :
    ShowsAt (Assoc.erase (place ++ names) t) path place (update v names none) := by
  have hplace : place ++ names ≠ [] := by simp [hne]
  have hwell : WellFormed (Assoc.erase (place ++ names) t) := by
    apply h.rooted.wellFormed.erase hplace
    intro hdir
    rw [h.view] at hdir
    apply List.eq_nil_iff_forall_not_mem.mpr
    intro x hx
    rw [h.rooted.wellFormed.mem_namesAt, List.append_assoc, h.view, hleaf hdir x] at hx
    cases hx
  constructor
  · apply h.rooted.transfer hwell
    · intro p hout
      rw [node?_erase hplace, if_neg (hout names hne)]
    · intro rest target
      rw [node?_erase hplace]
      split
      · simp
      · exact h.rooted.plain rest target
  · intro other
    rw [node?_erase hplace, Function.update_apply]
    simp only [List.append_cancel_left_eq, h.view]

end ShowsAt

/-- What is found once a directory is gone unless something lies in it. -/
inductive Pruned (v : Path → Option Node) (names : Path) (w : Path → Option Node) : Prop where
  | empty : (∀ x, v (names ++ [x]) = none) → w = update v names none → Pruned v names w
  | kept {x} : (v (names ++ [x])).isSome → w = v → Pruned v names w

namespace Shows

variable {t : FileTree} {path : Path} {v : Path → Option Node} {names : Path} {l : Location}

theorem write (h : t.Shows path v) (hl : l.path = path ++ names) (hnames : Plain names)
    (hne : names ≠ []) (hparent : v names.dropLast = some .directory)
    (hfree : v names ≠ some .directory) (data : Bytes) :
    ∃ s, t.apply (.write l data) = .ok s ∧
      s.Shows path (update v names (some (.file (.bytes data)))) := by
  obtain ⟨place, hat⟩ := h
  have hwalk := hat.walk hnames hne hparent true
  have hput := hat.put hne (.file (.bytes data)) hparent (absurd · hfree) (by simp)
  refine ⟨_, ?_, place, hput⟩
  rw [← hat.view] at hfree
  simp only [apply, FileTree.write, writeContent, FileTree.place, hl, hwalk, if_neg hfree]

theorem makeDirectory_new (h : t.Shows path v) (hl : l.path = path ++ names)
    (hnames : Plain names) (hparent : v names.dropLast = some .directory)
    (hnone : v names = none) :
    ∃ s, t.apply (.makeDirectory l) = .ok s ∧
      s.Shows path (update v names (some .directory)) := by
  have hne : names ≠ [] := by
    rintro rfl
    rw [h.root] at hnone
    cases hnone
  have hfalse := h.isDirectory_eq hnames
  rw [hnone] at hfalse
  obtain ⟨place, hat⟩ := h
  have hwalk := hat.walk hnames hne hparent false
  have hput := hat.put hne .directory hparent (fun _ => rfl) (by simp)
  refine ⟨_, ?_, place, hput⟩
  rw [← hat.view] at hnone
  simp [apply, makeDirectory, entryPlace, hl, hfalse, hwalk, hnone]

theorem remove_file (h : t.Shows path v) (hl : l.path = path ++ names) (hnames : Plain names)
    {content : Content} (hfile : v names = some (.file content)) :
    ∃ s, t.apply (.remove l) = .ok s ∧ s.Shows path (update v names none) := by
  have hne : names ≠ [] := by
    rintro rfl
    rw [h.root] at hfile
    cases hfile
  have hparent := h.parent hfile
  obtain ⟨place, hat⟩ := h
  have hwalk := hat.walk hnames hne hparent false
  have herase := hat.erase hne (by simp [hfile])
  refine ⟨_, ?_, place, herase⟩
  rw [← hat.view] at hfile
  simp only [apply, removeFile, entryPlace, hl, hwalk, hfile]

theorem prune_empty (h : t.Shows path v) (hl : l.path = path ++ names) (hnames : Plain names)
    (hne : names ≠ []) (hdir : v names = some .directory) (hempty : ∀ x, v (names ++ [x]) = none) :
    ∃ s, t.apply (.prune l) = .ok s ∧ s.Shows path (update v names none) := by
  have hparent := h.parent hdir
  obtain ⟨place, hat⟩ := h
  have hwalk := hat.walk hnames hne hparent false
  have herase := hat.erase hne fun _ => hempty
  have hlist : t.namesAt (place ++ names) = [] := by
    apply List.eq_nil_iff_forall_not_mem.mpr
    intro x hx
    rw [hat.rooted.wellFormed.mem_namesAt, List.append_assoc, hat.view, hempty x] at hx
    cases hx
  refine ⟨_, ?_, place, herase⟩
  rw [← hat.view] at hdir
  simp only [apply, removeDirectory, entryPlace, hl, hwalk, hdir, if_pos hlist]

/-- A directory that still has entries stays. -/
theorem prune_kept (h : t.Shows path v) (hl : l.path = path ++ names) (hnames : Plain names)
    (hne : names ≠ []) {x : String} {node : Node} (hx : v (names ++ [x]) = some node) :
    t.apply (.prune l) = .ok t := by
  have hdir := h.parent hx
  rw [List.dropLast_concat] at hdir
  have hparent := h.parent hdir
  obtain ⟨place, hat⟩ := h
  have hwalk := hat.walk hnames hne hparent false
  have hlist : t.namesAt (place ++ names) ≠ [] := by
    have hmem : x ∈ t.namesAt (place ++ names) := by
      rw [hat.rooted.wellFormed.mem_namesAt, List.append_assoc, hat.view, hx]
      rfl
    exact List.ne_nil_of_mem hmem
  rw [← hat.view] at hdir
  simp only [apply, removeDirectory, entryPlace, hl, hwalk, hdir, if_neg hlist]

theorem prune_none (h : t.Shows path v) (hl : l.path = path ++ names) (hnames : Plain names)
    (hne : names ≠ []) (hnone : v names = none) : t.apply (.prune l) = .ok t := by
  obtain ⟨place, hat⟩ := h
  rw [← hat.view] at hnone
  by_cases hparent : t.node? (place ++ names.dropLast) = some .directory
  · have hwalk := hat.rooted.walk_ok hnames hne hparent false
    simp only [apply, removeDirectory, entryPlace, hl, hwalk, hnone]
  · obtain ⟨e, hwalk⟩ := hat.rooted.walk_error hnames hne hparent false
    simp only [apply, removeDirectory, entryPlace, hl, hwalk]

/-- Pruning takes a directory away if it is empty. -/
theorem prune (h : t.Shows path v) (hl : l.path = path ++ names) (hnames : Plain names)
    (hne : names ≠ []) (hdir : v names = none ∨ v names = some .directory) :
    ∃ s w, t.apply (.prune l) = .ok s ∧ s.Shows path w ∧ Pruned v names w := by
  by_cases hempty : ∀ x, v (names ++ [x]) = none
  · rcases hdir with hnone | hdir
    · refine ⟨t, v, h.prune_none hl hnames hne hnone, h, .empty hempty ?_⟩
      rw [← hnone, Function.update_eq_self]
    · obtain ⟨s, happly, hs⟩ := h.prune_empty hl hnames hne hdir hempty
      exact ⟨s, _, happly, hs, .empty hempty rfl⟩
  · obtain ⟨x, hx⟩ := not_forall.mp hempty
    obtain ⟨node, hnode⟩ := Option.ne_none_iff_exists'.mp hx
    exact ⟨t, v, h.prune_kept hl hnames hne hnode, h, .kept (Option.isSome_of_eq_some hnode) rfl⟩

end Shows

/-! ## Performing steps -/

theorem perform_cons {t s : FileTree} {step : Step} (h : t.apply step = .ok s)
    (rest : List Step) : t.perform (step :: rest) = s.perform rest := by
  simp only [perform, h]

theorem perform_append {t s : FileTree} {first : List Step} (h : t.perform first = (none, s))
    (rest : List Step) : t.perform (first ++ rest) = s.perform rest := by
  induction first generalizing t with
  | nil =>
    simp only [perform, Prod.mk.injEq, true_and] at h
    rw [h, List.nil_append]
  | cons step first ih =>
    rw [List.cons_append]
    simp only [perform] at h ⊢
    cases happly : t.apply step with
    | error e => simp [happly] at h
    | ok t' =>
      simp only [happly] at h ⊢
      exact ih h

theorem carryOut_snd (t : FileTree) (plan : Plan) :
    (t.carryOut plan).2 = (t.perform plan.steps).2 := by
  rw [carryOut]
  split
  · next hperform => rw [hperform]
  · next hperform =>
    rw [hperform]
    split <;> rfl

theorem of_carryOut_ok {t : FileTree} {plan : Plan} (h : (t.carryOut plan).1 = .ok ()) :
    (t.perform plan.steps).1 = none ∧ plan.failure = none := by
  rw [carryOut] at h
  split at h
  · cases h
  · next hperform =>
    split at h
    · cases h
    · next hfailure => exact ⟨by rw [hperform], hfailure⟩

/-- All steps come out well, and whatever number of them is performed, the tree that is left has a
property. -/
structure Passes (t : FileTree) (steps : List Step) (s : FileTree) (P : FileTree → Prop) :
    Prop where
  performs : t.perform steps = (none, s)
  throughout : ∀ n, P (t.perform (steps.take n)).2

namespace Passes

variable {t s u : FileTree} {P Q : FileTree → Prop}

theorem nil (h : P t) : t.Passes [] t P where
  performs := rfl
  throughout := by
    intro n
    rw [List.take_nil]
    exact h

theorem cons {step : Step} {rest : List Step} (h : P t) (happly : t.apply step = .ok s)
    (hrest : s.Passes rest u P) : t.Passes (step :: rest) u P where
  performs := by
    rw [perform_cons happly]
    exact hrest.performs
  throughout := by
    intro n
    cases n with
    | zero => exact h
    | succ n =>
      rw [List.take_succ_cons, perform_cons happly]
      exact hrest.throughout n

theorem append {first rest : List Step} (hfirst : t.Passes first s P)
    (hrest : s.Passes rest u P) : t.Passes (first ++ rest) u P where
  performs := by
    rw [perform_append hfirst.performs]
    exact hrest.performs
  throughout := by
    intro n
    by_cases hn : n ≤ first.length
    · rw [List.take_append_of_le_length hn]
      exact hfirst.throughout n
    · obtain ⟨m, rfl⟩ := Nat.exists_eq_add_of_le (Nat.le_of_not_le hn)
      rw [List.take_length_add_append, perform_append hfirst.performs]
      exact hrest.throughout m

theorem imp {steps : List Step} (h : t.Passes steps s P) (hPQ : ∀ u, P u → Q u) :
    t.Passes steps s Q :=
  ⟨h.performs, fun n => hPQ _ (h.throughout n)⟩

theorem carryOut {plan : Plan} (h : t.Passes plan.steps s P) (hplan : plan.failure = none) :
    t.carryOut plan = (.ok (), s) := by
  simp only [FileTree.carryOut, h.performs, hplan]

end Passes

/-! ## Creating a directory -/

/-- What is found once there is a directory with all those above it. -/
def opened (v : Path → Option Node) (names : Path) : Path → Option Node := fun other =>
  if other <+: names then some .directory else v other

theorem opened_above {v : Path → Option Node} {names other : Path} (h : other <+: names) :
    opened v names other = some .directory := if_pos h

theorem opened_other {v : Path → Option Node} {names other : Path}
    (h : ¬other <+: names) : opened v names other = v other := if_neg h

theorem opened_update (v : Path → Option Node) (here rest : Path) :
    opened (update v here (some .directory)) (here ++ rest) = opened v (here ++ rest) := by
  funext other
  by_cases hother : other <+: here ++ rest
  · rw [opened_above hother, opened_above hother]
  · have hne : other ≠ here := by
      rintro rfl
      exact hother (List.prefix_append other rest)
    rw [opened_other hother, opened_other hother, Function.update_of_ne hne]

/-- No file is in the way of a directory. -/
def Clear (v : Path → Option Node) (names : Path) : Prop :=
  ∀ other, other <+: names → v other = none ∨ v other = some .directory

/-- A directory and those further down along the names. -/
def chain (here : Path) : Path → List Path
  | [] => [here]
  | name :: rest => here :: chain (here ++ [name]) rest

theorem chain_eq (here rest : Path) :
    here :: (List.range rest.length).map (fun n => here ++ rest.take (n + 1)) =
      chain here rest := by
  induction rest generalizing here with
  | nil => rfl
  | cons name rest ih =>
    rw [chain, ← ih, List.length_cons, List.range_succ_eq_map]
    simp

theorem chain_take (here rest : Path) (n : Nat) :
    (chain here rest).take (n + 1) = chain here (rest.take n) := by
  induction rest generalizing here n with
  | nil => rw [List.take_nil, chain, List.take_succ_cons, List.take_nil]
  | cons name rest ih =>
    cases n with
    | zero => rw [chain, List.take_succ_cons, List.take_zero, List.take_zero, chain]
    | succ n => rw [chain, List.take_succ_cons, ih, List.take_succ_cons, chain]

/-- Directories that are there are passed on the way to the missing ones. -/
theorem missingFrom_passed {t : FileTree} {done first : Path} (rest : Path)
    (h : ∀ p, p ≠ [] → p <+: first → t.lookup (done ++ p) = .ok .directory) :
    t.missingFrom done (first ++ rest) = t.missingFrom (done ++ first) rest := by
  induction first generalizing done with
  | nil => rw [List.nil_append, List.append_nil]
  | cons name first ih =>
    have hhere := h [name] (by simp) (by simp)
    rw [List.cons_append, missingFrom]
    simp only [hhere]
    rw [ih, List.append_assoc, List.singleton_append]
    intro p hp hpre
    rw [List.append_assoc, List.singleton_append]
    exact h (name :: p) (by simp) (List.cons_prefix_cons.mpr ⟨rfl, hpre⟩)

/-- A property of the trees that come up while directories are created along names. -/
def OpensThrough (path : Path) (v : Path → Option Node) (names : Path) (P : FileTree → Prop) :
    Prop :=
  ∀ other s, other <+: names → Shows s path (opened v other) → P s

/-- The steps that create directories one after another. -/
def makeAll (paths : List Path) : List Step := paths.map fun p => .makeDirectory ⟨"", p⟩

namespace Shows

variable {t : FileTree} {path : Path} {v : Path → Option Node} {names : Path}

/-- Everything on the way to what is found is a directory. -/
theorem ancestor (h : t.Shows path v) {other : Path} (hother : other <+: names) {node : Node}
    (hnode : v names = some node) (hne : other ≠ names) : v other = some .directory := by
  obtain ⟨rest, rfl⟩ := hother
  obtain ⟨place, hat⟩ := h
  rw [← hat.view] at hnode ⊢
  rw [← List.append_assoc] at hnode
  exact hat.rooted.wellFormed.ancestor rest (by simpa using hne) hnode

/-- Opening a directory that is there makes no difference. -/
theorem opened_eq (h : t.Shows path v) (hdir : v names = some .directory) :
    opened v names = v := by
  funext other
  by_cases hother : other <+: names
  · rw [opened_above hother]
    by_cases heq : other = names
    · rw [heq, hdir]
    · rw [h.ancestor hother hdir heq]
  · exact opened_other hother

/-- Opening a directory in one that is there. -/
theorem opened_child (h : t.Shows path v) (hdir : v names = some .directory) (x : String) :
    opened v (names ++ [x]) = update v (names ++ [x]) (some .directory) := by
  funext other
  by_cases heq : other = names ++ [x]
  · rw [heq, Function.update_self, opened_above (List.prefix_refl _)]
  · rw [Function.update_of_ne heq]
    by_cases hother : other <+: names ++ [x]
    · rw [List.prefix_concat_iff, or_iff_right heq] at hother
      rw [opened_above (hother.trans (List.prefix_append _ _))]
      have hsame := congrFun (h.opened_eq hdir) other
      rw [opened_above hother] at hsame
      exact hsame
    · exact opened_other hother

/-- Nothing is found below what is not there. -/
theorem none_below (h : t.Shows path v) (hnone : v names = none) (rest : Path) :
    v (names ++ rest) = none := by
  by_cases hrest : rest = []
  · rw [hrest, List.append_nil, hnone]
  · cases hnode : v (names ++ rest) with
    | none => rfl
    | some node =>
      have hdir := h.ancestor (List.prefix_append names rest) hnode (by simpa using Ne.symm hrest)
      rw [hnone] at hdir
      cases hdir

/-- Create a directory that is missing, and those below it along the names. -/
theorem perform_chain (h : t.Shows path v) {here : Path} (rest : Path)
    (hnames : Plain (here ++ rest)) (hparent : v here.dropLast = some .directory)
    (hnone : v here = none) :
    ∃ s, t.perform (makeAll (chain (path ++ here) rest)) = (none, s) ∧
      s.Shows path (opened v (here ++ rest)) := by
  have hplain : Plain here := fun x hx => hnames x (List.mem_append_left _ hx)
  obtain ⟨s, happly, hs⟩ := h.makeDirectory_new (l := ⟨"", path ++ here⟩)
    (by rw [Location.path, Path.ofText_empty, List.nil_append]) hplain hparent hnone
  have hthere : update v here (some .directory) here = some .directory := Function.update_self ..
  rw [← opened_update v here rest]
  induction rest generalizing t v here s with
  | nil =>
    refine ⟨s, ?_, ?_⟩
    · simp only [makeAll, chain, List.map_cons, List.map_nil]
      rw [perform_cons happly, perform]
    · rw [List.append_nil, hs.opened_eq hthere]
      exact hs
  | cons name rest ih =>
    have hnext : update v here (some .directory) (here ++ [name]) = none := by
      rw [Function.update_of_ne (by simp)]
      exact h.none_below hnone _
    have hdrop : update v here (some .directory) (here ++ [name]).dropLast = some .directory := by
      rw [List.dropLast_concat, hthere]
    rw [List.append_cons] at hnames ⊢
    have hplain' : Plain (here ++ [name]) := fun x hx => hnames x (List.mem_append_left _ hx)
    obtain ⟨s', happly', hs'⟩ := hs.makeDirectory_new (l := ⟨"", path ++ (here ++ [name])⟩)
      (by rw [Location.path, Path.ofText_empty, List.nil_append]) hplain' hdrop hnext
    obtain ⟨s'', hperform, hs''⟩ := ih hs hnames hdrop hnext hplain' s' happly' hs'
      (Function.update_self ..)
    refine ⟨s'', ?_, ?_⟩
    · rw [makeAll, chain, List.map_cons, perform_cons happly, List.append_assoc]
      exact hperform
    · rw [← opened_update]
      exact hs''

/-- What was created before the last of the directories is a directory further up. -/
theorem chain_passes (h : t.Shows path v) {here : Path} (rest : Path)
    (hnames : Plain (here ++ rest)) (hparent : v here.dropLast = some .directory)
    (hnone : v here = none) {P : FileTree → Prop} (hP : OpensThrough path v (here ++ rest) P) :
    ∃ s, t.Passes (makeAll (chain (path ++ here) rest)) s P ∧
      s.Shows path (opened v (here ++ rest)) := by
  obtain ⟨s, hperform, hs⟩ := h.perform_chain rest hnames hparent hnone
  refine ⟨s, ⟨hperform, fun n => ?_⟩, hs⟩
  cases n with
  | zero =>
    apply hP [] t List.nil_prefix
    rw [h.opened_eq h.root]
    exact h
  | succ n =>
    have hpre : here ++ rest.take n <+: here ++ rest :=
      (List.prefix_append_right_inj here).mpr (List.take_prefix n rest)
    have htake : Plain (here ++ rest.take n) := fun x hx => hnames x (hpre.subset hx)
    obtain ⟨u, hperform', hu⟩ := h.perform_chain (rest.take n) htake hparent hnone
    rw [makeAll, ← List.map_take, chain_take, ← makeAll, hperform']
    exact hP _ u hpre hu

/-- What is planned below a directory that is there. -/
theorem missingFrom_passes (h : t.Shows path v) (done : Path) {rest : Path}
    (hnames : Plain (done ++ rest)) (hdone : v done = some .directory)
    (hclear : Clear v (done ++ rest)) {P : FileTree → Prop}
    (hP : OpensThrough path v (done ++ rest) P) :
    ∃ missing s, t.missingFrom (path ++ done) rest = (missing, none) ∧
      t.Passes (makeAll missing) s P ∧ s.Shows path (opened v (done ++ rest)) := by
  induction rest generalizing done with
  | nil =>
    rw [List.append_nil] at hP ⊢
    have hsame : t.Shows path (opened v done) := by
      rw [h.opened_eq hdone]
      exact h
    exact ⟨[], t, by rw [missingFrom], .nil (hP done t (List.prefix_refl _) hsame), hsame⟩
  | cons name rest ih =>
    rw [List.append_cons] at hnames hclear hP ⊢
    have hplain : Plain (done ++ [name]) := fun x hx => hnames x (List.mem_append_left _ hx)
    rw [missingFrom]
    simp only [List.append_assoc path done [name]]
    cases hclear (done ++ [name]) (List.prefix_append _ _) with
    | inr hdir =>
      rw [h.lookup_some hplain hdir]
      exact ih (done ++ [name]) hnames hdir hclear hP
    | inl hnone =>
      have hdrop : v (done ++ [name]).dropLast = some .directory := by
        rw [List.dropLast_concat, hdone]
      obtain ⟨e, hlookup, hnotFound⟩ := h.lookup_none hplain hnone
      obtain ⟨s, hpasses, hs⟩ := h.chain_passes rest hnames hdrop hnone hP
      obtain ⟨place, hat⟩ := h
      have hwalk := hat.walk hplain (by simp) hdrop false
      have hvacant : t.node? (place ++ (done ++ [name])) = none := by rw [hat.view, hnone]
      refine ⟨chain (path ++ (done ++ [name])) rest, s, ?_, hpasses, hs⟩
      rw [hlookup, hnotFound hdrop, ← chain_eq]
      simp only [entryPlace, hwalk, hvacant, Option.isSome_none, Bool.false_eq_true, if_false]

/-- All the names on the way to the directory seen lead to directories. -/
theorem missingFrom_root (h : t.Shows path v) (names : Path) :
    t.missingFrom [] (path ++ names) = t.missingFrom path names := by
  obtain ⟨place, hat⟩ := h
  apply missingFrom_passed
  rintro first - ⟨second, hpath⟩
  exact hat.rooted.lookup_prefix hpath.symm

/-- There is nothing to do for the directory seen itself. -/
theorem planDirectory_root (h : t.Shows path v) {l : Location} (hl : l.path = path) :
    t.planDirectory l = {} := by
  have hpassed := h.missingFrom_root []
  rw [List.append_nil, missingFrom] at hpassed
  simp only [FileTree.planDirectory, hl, hpassed, List.map_nil, Option.map_none]

/-- Creating a directory below the one seen, with all those that are missing above it: they come
up one by one from above. -/
theorem planDirectory (h : t.Shows path v) {l : Location} (hl : l.path = path ++ names)
    (hnames : Plain names) (hclear : Clear v names) {P : FileTree → Prop}
    (hP : OpensThrough path v names P) :
    ∃ s, (t.planDirectory l).failure = none ∧ t.Passes (t.planDirectory l).steps s P ∧
      s.Shows path (opened v names) := by
  obtain ⟨missing, s, hmissing, hpasses, hs⟩ := h.missingFrom_passes [] hnames h.root hclear hP
  rw [List.append_nil] at hmissing
  have hplan : t.planDirectory l = { steps := makeAll missing } := by
    simp only [FileTree.planDirectory, hl, h.missingFrom_root, hmissing, makeAll, Option.map_none]
  exact ⟨s, by rw [hplan], by rw [hplan]; exact hpasses, hs⟩

/-- There is nothing to do for a directory that is there. -/
theorem planDirectory_there (h : t.Shows path v) {l : Location} (hl : l.path = path ++ names)
    (hnames : Plain names) (hdir : v names = some .directory) : t.planDirectory l = {} := by
  have hpassed : t.missingFrom path (names ++ []) = t.missingFrom (path ++ names) [] := by
    apply missingFrom_passed
    intro p _ hp
    apply h.lookup_some fun x hx => hnames x (hp.subset hx)
    by_cases heq : p = names
    · rw [heq, hdir]
    · exact h.ancestor hp hdir heq
  rw [List.append_nil, missingFrom] at hpassed
  simp only [FileTree.planDirectory, hl, h.missingFrom_root, hpassed, List.map_nil, Option.map_none]

/-- A file in the way of a directory is met before anything is done. -/
theorem missingFrom_blocked (h : t.Shows path v) (done : Path) {rest : Path}
    (hnames : Plain (done ++ rest)) (hdone : v done = some .directory)
    (hblocked : ¬Clear v (done ++ rest)) :
    ∃ e, t.missingFrom (path ++ done) rest = ([], some e) := by
  induction rest generalizing done with
  | nil =>
    refine absurd (fun other hother => ?_) hblocked
    rw [List.append_nil] at hother
    by_cases heq : other = done
    · exact .inr (heq ▸ hdone)
    · exact .inr (h.ancestor hother hdone heq)
  | cons name rest ih =>
    rw [List.append_cons] at hnames hblocked
    have hplain : Plain (done ++ [name]) := fun x hx => hnames x (List.mem_append_left _ hx)
    rw [missingFrom]
    simp only [List.append_assoc path done [name]]
    cases hnode : v (done ++ [name]) with
    | none =>
      refine absurd (fun other hother => ?_) hblocked
      rcases List.prefix_or_prefix_of_prefix hother (List.prefix_append (done ++ [name]) rest) with
        habove | ⟨below, rfl⟩
      · rcases List.prefix_concat_iff.mp habove with rfl | habove
        · exact .inl hnode
        · by_cases heq : other = done
          · exact .inr (heq ▸ hdone)
          · exact .inr (h.ancestor habove hdone heq)
      · exact .inl (h.none_below hnode below)
    | some node =>
      rw [h.lookup_some hplain hnode]
      cases node with
      | directory => exact ih (done ++ [name]) hnames hnode hblocked
      | file content => exact ⟨_, rfl⟩
      | link target => exact ⟨_, rfl⟩

theorem planDirectory_blocked (h : t.Shows path v) {l : Location} (hl : l.path = path ++ names)
    (hnames : Plain names) (hblocked : ¬Clear v names) :
    ∃ e, t.planDirectory l = { failure := some e } := by
  obtain ⟨e, hmissing⟩ := h.missingFrom_blocked [] hnames h.root hblocked
  rw [List.append_nil] at hmissing
  refine ⟨.io l.text e, ?_⟩
  simp only [FileTree.planDirectory, hl, h.missingFrom_root, hmissing, List.map_nil,
    Option.map_some]

end Shows

end KeyedLog.FileTree
