import ApiTypings.Command.FileTree
import Mathlib.Data.List.Basic
/-!
# Places that paths lead to

A path leads to a place of a file tree (`FileTree.leadsTo?`) if each of its segments can be entered. The
place follows from the steps of the path alone (`FileTree.place_of_leadsTo?`), although whether the
path leads anywhere does not: no segment, not even a dot, can be entered from a file. The path of an
entry has one step more than that of its directory (`pathSteps_entryPath`) and leads to the entry
(`FileTree.leadsTo?_entryPath`).

A tree is proper (`FileTree.Proper`) if the entries of each directory have distinct names that are
steps to them. What is at a place of it is found by going down (`FileTree.mem_entries_iff`).
-/

namespace ApiTypings

/-- A name that leads from a directory to an entry. -/
structure ProperName (name : String) : Prop where
  possible : isEntryName name = true
  unbroken : '/' ∉ name.toList
  step : PathStep.inner? name = some (.name name)

/-! ### Segments and steps -/

variable {parent name path : String}

theorem pathSegments_ne_nil (path : String) : pathSegments path ≠ [] := by
  rw [pathSegments, Ne, List.map_eq_nil_iff]
  exact List.splitOn_ne_nil '/' path.toList

/-- Only the empty path consists of an empty segment. -/
theorem eq_empty_of_pathSegments (h : pathSegments path = [""]) : path = "" := by
  obtain ⟨cs, hcs, hempty⟩ := List.map_eq_singleton_iff.1 h
  have hjoined : ['/'].intercalate (path.toList.splitOn '/') = path.toList :=
    List.intercalate_splitOn '/'
  rw [hcs, List.intercalate_singleton] at hjoined
  rw [← hempty, hjoined, String.ofList_toList]

/-- What is behind a slash are further segments. -/
theorem pathSegments_slash (hname : '/' ∉ name.toList) (front : String) :
    pathSegments (front ++ "/" ++ name) = pathSegments front ++ [name] := by
  have hchars : (front ++ "/" ++ name).toList = front.toList ++ '/' :: name.toList := by simp
  rw [pathSegments, hchars, List.splitOn_append_cons_self, List.splitOn_eq_singleton hname,
    List.map_append, List.map_singleton, String.ofList_toList, pathSegments]

/-- An entry has the segments of its directory, without an empty one at the end, and its name. -/
theorem pathSegments_entryPath (parent : String) (hname : '/' ∉ name.toList) :
    ∃ front, pathSegments (entryPath parent name) = front ++ [name] ∧
      (pathSegments parent = front ∨ pathSegments parent = front ++ [""]) := by
  unfold entryPath
  split
  · next h =>
    obtain ⟨front, hfront⟩ := List.getLast?_eq_some_iff.1 h
    have hparent : parent = String.ofList front ++ "/" ++ "" := by
      rw [← String.toList_inj, hfront]
      simp
    refine ⟨pathSegments (String.ofList front), ?_, .inr ?_⟩
    · rw [hparent, String.append_empty, pathSegments_slash hname]
    · rw [hparent, pathSegments_slash (by simp)]
  · exact ⟨_, pathSegments_slash hname parent, .inl rfl⟩

theorem pathSteps_of_segments {first : String} {rest : List String}
    (h : pathSegments path = first :: rest) (hne : path ≠ "") :
    pathSteps path = (PathStep.first? first).toList ++ rest.filterMap PathStep.inner? := by
  unfold pathSteps
  split
  · next hnil => exact absurd hnil (pathSegments_ne_nil path)
  · next hempty => exact absurd (eq_empty_of_pathSegments hempty) hne
  · next first' rest' _ hcons =>
    obtain ⟨rfl, rfl⟩ := List.cons_eq_cons.1 (h.symm.trans hcons)
    rfl

theorem entryPath_ne_empty (hname : ProperName name) : entryPath parent name ≠ "" := by
  intro h
  obtain ⟨front, hfront, -⟩ := pathSegments_entryPath parent hname.unbroken
  rw [h] at hfront
  have hlast : name = "" := by
    have hlast := congrArg List.getLast? hfront
    rw [List.getLast?_concat] at hlast
    exact (Option.some_inj.1 hlast).symm
  have hstep := hname.step
  rw [hlast] at hstep
  cases hstep

/-- **The path of an entry** has one step more than that of the directory. -/
theorem pathSteps_entryPath (hparent : parent ≠ "") (hname : ProperName name) :
    pathSteps (entryPath parent name) = pathSteps parent ++ [.name name] := by
  obtain ⟨front, hentry, hfront⟩ := pathSegments_entryPath parent hname.unbroken
  cases front with
  | nil =>
    rcases hfront with h | h
    · exact absurd h (pathSegments_ne_nil parent)
    · exact absurd (eq_empty_of_pathSegments h) hparent
  | cons first rest =>
    have hentry : pathSegments (entryPath parent name) = first :: (rest ++ [name]) := hentry
    rw [pathSteps_of_segments hentry (entryPath_ne_empty hname), List.filterMap_append,
      List.filterMap_cons_some hname.step, List.filterMap_nil, ← List.append_assoc]
    rcases hfront with h | h
    · rw [pathSteps_of_segments h hparent]
    · have h : pathSegments parent = first :: (rest ++ [""]) := h
      rw [pathSteps_of_segments h hparent, List.filterMap_append]
      simp [PathStep.inner?]

/-- The path of what is reached from a directory by a chain of names has a step for each name. -/
theorem pathSteps_foldl_entryPath {names : List String} (hparent : parent ≠ "")
    (hnames : ∀ name ∈ names, ProperName name) :
    pathSteps (names.foldl entryPath parent) = pathSteps parent ++ names.map .name := by
  induction names generalizing parent with
  | nil => simp
  | cons name names ih =>
    obtain ⟨hname, hnames⟩ := List.forall_mem_cons.1 hnames
    rw [List.foldl_cons, ih (entryPath_ne_empty hname) hnames, pathSteps_entryPath hparent hname]
    simp

/-! ### From steps to places -/

/-- The place that a step leads to from a place. -/
def PathStep.follow (here : List String) : PathStep → List String
  | .up => here.dropLast
  | .name text => here ++ [text]
  | _ => here

/-- The place that steps lead to from the root of a tree. -/
def stepsPlace (steps : List PathStep) : List String :=
  steps.foldl PathStep.follow []

theorem foldl_follow_names (here names : List String) :
    (names.map PathStep.name).foldl PathStep.follow here = here ++ names := by
  induction names generalizing here with
  | nil => simp
  | cons name names ih =>
    rw [List.map_cons, List.foldl_cons, ih]
    simp [PathStep.follow]

/-- At the start no dot leads anywhere. -/
theorem foldl_follow_first? (first : String) :
    (PathStep.first? first).toList.foldl PathStep.follow [] =
      (PathStep.inner? first).toList.foldl PathStep.follow [] := by
  unfold PathStep.first? PathStep.inner?
  split <;> rfl

theorem stepsPlace_pathSteps (path : String) :
    stepsPlace (pathSteps path) =
      ((pathSegments path).filterMap PathStep.inner?).foldl PathStep.follow [] := by
  by_cases hpath : path = ""
  · rw [hpath]
    rfl
  · obtain ⟨first, rest, h⟩ := List.exists_cons_of_ne_nil (pathSegments_ne_nil path)
    rw [stepsPlace, pathSteps_of_segments h hpath, h, List.foldl_append, foldl_follow_first?,
      ← List.foldl_append]
    congr 1
    rw [List.filterMap_cons]
    cases PathStep.inner? first <;> rfl

/-! ### Entering a tree -/

namespace FileTree

variable {t : FileTree} {here there place : List String} {segment : String}

/-- The place that a path leads to, whatever its length. -/
def leadsTo? (t : FileTree) (path : String) : Option (List String) :=
  (pathSegments path).foldlM t.enter? []

theorem leadsTo?_of_locate? (h : t.locate? path = some place) : t.leadsTo? path = some place := by
  obtain ⟨segments, hsegments, hplace⟩ := Option.bind_eq_some_iff.1 h
  unfold relativeSegments? at hsegments
  split at hsegments
  · cases hsegments
  · cases hsegments
  · split at hsegments
    · cases hsegments
      exact hplace
    · cases hsegments

/-- Where a path leads to, the path is not empty. -/
theorem ne_empty_of_locate? (h : t.locate? path = some place) : path ≠ "" := by
  rintro rfl
  obtain ⟨segments, hsegments, -⟩ := Option.bind_eq_some_iff.1 h
  cases hsegments

/-- What a segment leads to is what its step leads to. -/
theorem eq_of_enter? (h : t.enter? here segment = some there) :
    there = (PathStep.inner? segment).toList.foldl PathStep.follow here := by
  unfold enter? at h
  split at h
  · split at h
    · next hstep =>
      rw [hstep]
      exact (Option.some_inj.1 h).symm
    · next hstep =>
      rw [hstep]
      split at h
      · cases h
      · exact (Option.some_inj.1 h).symm
    · next step hup hstep =>
      have hname : step = .name segment := by
        unfold PathStep.inner? at hstep
        split at hstep <;> simp_all
      rw [hstep, hname]
      split at h
      · exact (Option.some_inj.1 h).symm
      · cases h
  · cases h

theorem eq_of_foldlM_enter? {segments : List String}
    (h : segments.foldlM t.enter? here = some there) :
    there = (segments.filterMap PathStep.inner?).foldl PathStep.follow here := by
  induction segments generalizing here with
  | nil => exact (Option.some_inj.1 h).symm
  | cons segment segments ih =>
    rw [List.foldlM_cons] at h
    obtain ⟨next, hnext, h⟩ := Option.bind_eq_some_iff.1 h
    rw [ih h, eq_of_enter? hnext, List.filterMap_cons]
    cases PathStep.inner? segment <;> rfl

/-- **The place of a path** follows from its steps. -/
theorem place_of_leadsTo? (h : t.leadsTo? path = some place) :
    place = stepsPlace (pathSteps path) := by
  rw [eq_of_foldlM_enter? h, stepsPlace_pathSteps]

/-- A name leads from a directory to the entry. -/
theorem enter?_name (hhere : (t.at? here).any isDirectory = true) (hname : ProperName name) :
    t.enter? here name = some (here ++ [name]) := by
  unfold enter?
  rw [if_pos hhere, hname.step]
  exact if_pos hname.possible

/-- **The path of an entry** leads to the entry of the directory. -/
theorem leadsTo?_entryPath (h : t.leadsTo? parent = some here)
    (hhere : (t.at? here).any isDirectory = true) (hname : ProperName name) :
    t.leadsTo? (entryPath parent name) = some (here ++ [name]) := by
  obtain ⟨front, hentry, hfront⟩ := pathSegments_entryPath parent hname.unbroken
  have hplace : front.foldlM t.enter? [] = some here := by
    rcases hfront with hfront | hfront
    · rw [← hfront]
      exact h
    · rw [leadsTo?, hfront, List.foldlM_append] at h
      obtain ⟨last, hlast, h⟩ := Option.bind_eq_some_iff.1 h
      obtain ⟨there, hthere, h⟩ := Option.bind_eq_some_iff.1 h
      -- An empty segment leads nowhere else.
      rw [hlast, ← Option.some_inj.1 h, eq_of_enter? hthere]
      rfl
  rw [leadsTo?, hentry, List.foldlM_append, hplace]
  exact (Option.bind_some ..).trans (by rw [List.foldlM_cons, enter?_name hhere hname]; rfl)

/-! ### What is at a place -/

theorem at?_append (front back : List String) :
    t.at? (front ++ back) = (t.at? front).bind (·.at? back) := by
  induction front generalizing t with
  | nil => simp [at?]
  | cons name front ih =>
    cases t with
    | file text => rfl
    | directory entries =>
      simp only [List.cons_append, at?, Option.bind_assoc, ih]

/-- Nothing is below a file. -/
theorem eq_nil_of_at?_file {text : Option String} {names : List String} {found : FileTree}
    (h : (file text).at? names = some found) : names = [] := by
  cases names with
  | nil => rfl
  | cons name names => cases h

/-- The entries of each directory have distinct names that lead to them. -/
inductive Proper : FileTree → Prop
  | file {text : Option String} : Proper (.file text)
  | directory {entries : List (String × FileTree)} : (entries.map (·.1)).Nodup →
    (∀ e ∈ entries, ProperName e.1) → (∀ e ∈ entries, Proper e.2) → Proper (.directory entries)

/-- With distinct names an entry is what is found under its name. -/
theorem lookup_eq_some_iff {entries : List (String × FileTree)} (h : (entries.map (·.1)).Nodup) :
    entries.lookup name = some t ↔ (name, t) ∈ entries := by
  induction entries with
  | nil => simp
  | cons e entries ih =>
    obtain ⟨first, found⟩ := e
    obtain ⟨hfirst, hrest⟩ := List.nodup_cons.1 h
    rw [List.lookup_cons, List.mem_cons, Prod.mk.injEq]
    by_cases hname : name = first
    · subst hname
      have hnot : (name, t) ∉ entries := fun hmem => hfirst (List.mem_map.2 ⟨_, hmem, rfl⟩)
      simp [hnot, eq_comm]
    · rw [beq_eq_false_iff_ne.2 hname]
      simp [hname, ih hrest]

/-- What is below a directory is below one of its entries. -/
theorem at?_cons_eq_some_iff {entries : List (String × FileTree)} {names : List String}
    {found : FileTree}
    (h : (entries.map (·.1)).Nodup) :
    (directory entries).at? (name :: names) = some found ↔
      ∃ t, (name, t) ∈ entries ∧ t.at? names = some found := by
  show (entries.lookup name).bind (·.at? names) = some found ↔ _
  simp only [Option.bind_eq_some_iff, lookup_eq_some_iff h]

/-- A place of a proper tree consists of proper names, and what is there is a proper tree. -/
theorem Proper.at? (h : t.Proper) {found : FileTree} (hfound : t.at? place = some found) :
    found.Proper ∧ ∀ name ∈ place, ProperName name := by
  induction place generalizing t with
  | nil =>
    cases hfound
    exact ⟨h, List.forall_mem_nil _⟩
  | cons name place ih =>
    cases h with
    | file => cases hfound
    | directory hnodup hnames hproper =>
      obtain ⟨below, hmem, hfound⟩ := (at?_cons_eq_some_iff hnodup).1 hfound
      obtain ⟨hbelow, hrest⟩ := ih (hproper _ hmem) hfound
      exact ⟨hbelow, List.forall_mem_cons.2 ⟨hnames _ hmem, hrest⟩⟩

/-- The path of what is at a chain of names below a directory leads there. -/
theorem leadsTo?_foldl_entryPath (proper : t.Proper) {names : List String}
    (h : t.leadsTo? parent = some here) (hhere : (t.at? (here ++ names)).isSome = true) :
    t.leadsTo? (names.foldl entryPath parent) = some (here ++ names) := by
  induction names generalizing parent here with
  | nil => simpa using h
  | cons name names ih =>
    obtain ⟨found, hfound⟩ := Option.isSome_iff_exists.1 hhere
    have hname : ProperName name := (proper.at? hfound).2 name (by simp)
    -- What something is below is a directory.
    have hdirectory : (t.at? here).any isDirectory = true := by
      rw [at?_append] at hfound
      obtain ⟨tree, htree, hbelow⟩ := Option.bind_eq_some_iff.1 hfound
      rw [htree]
      cases tree with
      | file text => cases hbelow
      | directory entries => rfl
    have hnext := ih (leadsTo?_entryPath h hdirectory hname) (by simpa using hhere)
    simpa using hnext

end FileTree

end ApiTypings
