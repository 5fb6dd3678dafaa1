import ApiTypings.Proofs.Except
import ApiTypings.Proofs.PathOrder
import ApiTypings.Proofs.TreePlaces
/-!
# The files that are discovered

An input stands for files of a tree (`FileTree.StandsFor`): for the file at it, or for the schema files
below it, at any depth. Each of them stands under steps, those of the input and the names below it.
Main statement (`FileTree.discover_lists`): what `discover` lists are exactly these files, in strictly
ascending order of the steps that they stand under, whatever the order of the inputs.

Paths are compared by their steps, but files may stand under several: `./a.json` and `a.json` are both
listed. A file is listed once exactly if all inputs that stand for it agree on the steps, as inputs do
that are spelled with names only.

* The search of a directory is characterised by induction on the tree (`FileTree.mem_schemaFiles_iff`,
  `FileTree.exists_schemaFiles_iff`).
* What an input stands for is what is listed for it (`FileTree.standsFor_of_mem`,
  `FileTree.exists_mem_of_standsFor`).
-/

namespace ApiTypings

/-! ### Names of schema files -/

/-- A name with the extension `json` that does not start with an underscore. -/
def SchemaFileName (name : String) : Prop :=
  ∃ stem, stem ≠ "" ∧ name = stem ++ ".json" ∧ name.toList.head? ≠ some '_'

variable {name parent path input : String}

theorem isSchemaName_iff : isSchemaName name = true ↔ SchemaFileName name := by
  unfold isSchemaName SchemaFileName
  simp only [Bool.and_eq_true, decide_eq_true_iff, List.isSuffixOf_iff_suffix, and_assoc]
  constructor
  · rintro ⟨⟨stem, hstem⟩, hlength, hhead⟩
    refine ⟨String.ofList stem, ?_, ?_, hhead⟩
    · rintro hempty
      rw [← String.toList_inj, String.toList_ofList] at hempty
      rw [← hstem, hempty] at hlength
      exact absurd hlength (by decide)
    · rw [← String.toList_inj, ← hstem, String.toList_append, String.toList_ofList]
      rfl
  · rintro ⟨stem, hstem, rfl, hhead⟩
    refine ⟨⟨stem.toList, (String.toList_append ..).symm⟩, ?_, hhead⟩
    have hpos : 0 < stem.toList.length :=
      List.length_pos_iff.2 fun h => hstem (String.toList_inj.1 h)
    rw [String.toList_append, List.length_append]
    show 5 < stem.toList.length + 5
    omega

namespace FileTree

variable {t found : FileTree} {entries : List (String × FileTree)} {here place : List String}
variable {inputs paths : List String} {steps : List PathStep}

/-! ### The search of a directory -/

theorem schemaFilesBelow_eq_mapM (parent : String) (entries : List (String × FileTree)) :
    schemaFilesBelow parent entries =
      (entries.mapM fun e : String × FileTree => e.2.schemaFiles parent e.1).map List.flatten := by
  induction entries with
  | nil => rfl
  | cons e entries ih =>
    obtain ⟨name, t⟩ := e
    rw [List.mapM_cons, schemaFilesBelow, ih]
    cases t.schemaFiles parent name with
    | error _ => rfl
    | ok found =>
      cases entries.mapM fun e : String × FileTree => e.2.schemaFiles parent e.1 <;> rfl

theorem schemaFiles_directory (parent name : String) (entries : List (String × FileTree)) :
    (directory entries).schemaFiles parent name =
      if isPathLength (entryPath parent name) = true then
        schemaFilesBelow (entryPath parent name) entries
      else .error (entryPath parent name) := by
  rw [schemaFiles]

/-- What is found below a directory is found in one of its entries. -/
theorem mem_schemaFilesBelow_iff (h : schemaFilesBelow parent entries = .ok paths) :
    path ∈ paths ↔ ∃ e ∈ entries, ∃ found, e.2.schemaFiles parent e.1 = .ok found ∧ path ∈ found := by
  rw [schemaFilesBelow_eq_mapM, map_eq_ok_iff] at h
  obtain ⟨found, hfound, rfl⟩ := h
  exact mem_flatten_of_mapM hfound

/-- A directory can be searched if all entries can. -/
theorem exists_schemaFilesBelow_iff :
    (∃ paths, schemaFilesBelow parent entries = .ok paths) ↔
      ∀ e ∈ entries, ∃ found, e.2.schemaFiles parent e.1 = .ok found := by
  rw [← exists_mapM_eq_ok_iff, schemaFilesBelow_eq_mapM]
  simp only [map_eq_ok_iff]
  constructor
  · rintro ⟨_, found, hfound, -⟩
    exact ⟨found, hfound⟩
  · rintro ⟨found, hfound⟩
    exact ⟨_, found, hfound, rfl⟩

/-- **What is found** in an entry of a directory are the schema files at it or below it. -/
theorem mem_schemaFiles_iff (proper : t.Proper) (h : t.schemaFiles parent name = .ok paths) :
    path ∈ paths ↔ ∃ names last, path = (name :: names).foldl entryPath parent ∧
      (name :: names).getLast? = some last ∧ SchemaFileName last ∧
      ∃ text, t.at? names = some (.file text) := by
  induction proper generalizing parent name paths with
  | @file text =>
    cases h
    rw [← List.singleton_append, List.mem_ite_nil_right, isSchemaName_iff]
    constructor
    · rintro ⟨hname, hpath⟩
      exact ⟨[], name, List.mem_singleton.1 hpath, rfl, hname, text, rfl⟩
    · rintro ⟨names, last, rfl, hlast, hname, _, hfile⟩
      obtain rfl := eq_nil_of_at?_file hfile
      cases hlast
      exact ⟨hname, List.mem_singleton_self _⟩
  | @directory entries hnodup _ _ ih =>
    rw [schemaFiles_directory] at h
    split at h
    · rw [mem_schemaFilesBelow_iff h]
      constructor
      · rintro ⟨⟨below, t⟩, hmem, found, hfound, hpath⟩
        obtain ⟨names, last, rfl, hlast, hname, text, hfile⟩ := (ih _ hmem hfound).1 hpath
        refine ⟨below :: names, last, rfl, ?_, hname, text, ?_⟩
        · rwa [List.getLast?_cons_cons]
        · exact (at?_cons_eq_some_iff hnodup).2 ⟨t, hmem, hfile⟩
      · rintro ⟨names, last, rfl, hlast, hname, text, hfile⟩
        cases names with
        | nil => cases hfile
        | cons below names =>
          obtain ⟨t, hmem, hfile⟩ := (at?_cons_eq_some_iff hnodup).1 hfile
          obtain ⟨found, hfound⟩ := exists_schemaFilesBelow_iff.1 ⟨_, h⟩ _ hmem
          rw [List.getLast?_cons_cons] at hlast
          exact ⟨_, hmem, found, hfound,
            (ih _ hmem hfound).2 ⟨names, last, rfl, hlast, hname, text, hfile⟩⟩
    · cases h

/-- **A search ends** unless the path of a directory is too long. -/
theorem exists_schemaFiles_iff (proper : t.Proper) :
    (∃ paths, t.schemaFiles parent name = .ok paths) ↔
      ∀ names entries, t.at? names = some (.directory entries) →
        isPathLength ((name :: names).foldl entryPath parent) = true := by
  induction proper generalizing parent name with
  | @file text =>
    refine iff_of_true ⟨_, rfl⟩ fun names entries h => ?_
    obtain rfl := eq_nil_of_at?_file h
    cases h
  | @directory entries hnodup _ _ ih =>
    have hbelow : (∃ paths, schemaFilesBelow (entryPath parent name) entries = .ok paths) ↔
        ∀ below names entries', (directory entries).at? (below :: names) = some (.directory entries') →
          isPathLength ((name :: below :: names).foldl entryPath parent) = true := by
      rw [exists_schemaFilesBelow_iff]
      constructor
      · intro h below names entries' hat
        obtain ⟨t, hmem, hat⟩ := (at?_cons_eq_some_iff hnodup).1 hat
        exact (ih _ hmem).1 (h _ hmem) names entries' hat
      · rintro h ⟨below, t⟩ hmem
        exact (ih _ hmem).2 fun names entries' hat =>
          h below names entries' ((at?_cons_eq_some_iff hnodup).2 ⟨t, hmem, hat⟩)
    rw [schemaFiles_directory]
    split
    · next hlength =>
      rw [hbelow]
      constructor
      · intro h names entries' hat
        cases names with
        | nil => exact hlength
        | cons below names => exact h below names entries' hat
      · exact fun h below names entries' hat => h (below :: names) entries' hat
    · next hlength =>
      refine iff_of_false (fun ⟨_, h⟩ => (by cases h)) fun h => hlength ?_
      exact h [] entries rfl

/-! ### What an input stands for -/

/-- The files that an input stands for, and the steps that each stands under: the file at the input,
or a schema file below it. -/
inductive StandsFor (t : FileTree) (input : String) : List PathStep → List String → Prop
  | itself {place : List String} {text : Option String} : t.locate? input = some place →
    t.at? place = some (.file text) → StandsFor t input (pathSteps input) place
  | below {here names : List String} {last : String} {entries : List (String × FileTree)}
      {text : Option String} : t.locate? input = some here →
    t.at? here = some (.directory entries) → names.getLast? = some last → SchemaFileName last →
    t.at? (here ++ names) = some (.file text) →
    StandsFor t input (pathSteps input ++ names.map .name) (here ++ names)

/-- A file is selected by inputs if one of them stands for it. -/
def Selected (t : FileTree) (inputs : List String) (place : List String) : Prop :=
  ∃ input ∈ inputs, ∃ steps, t.StandsFor input steps place

/-- No directory below an input has a path that is too long to be looked up. -/
def Searchable (t : FileTree) (input : String) : Prop :=
  ∀ here names entries, t.locate? input = some here → names ≠ [] →
    t.at? (here ++ names) = some (.directory entries) →
    isPathLength (names.foldl entryPath input) = true

theorem find?_eq_some_iff :
    t.find? input = some found ↔ ∃ here, t.locate? input = some here ∧ t.at? here = some found :=
  Option.bind_eq_some_iff

/-- What is listed for an input that is a directory is what a search finds in its entries. -/
theorem inputFiles_directory (h : t.find? input = some (.directory entries)) :
    inputFiles t.find? input = (schemaFilesBelow input entries).mapError (.tooLong input) := by
  rw [inputFiles, h]

theorem inputFiles_file {text : Option String} (h : t.find? input = some (.file text)) :
    inputFiles t.find? input = .ok [input] := by
  rw [inputFiles, h]

theorem at?_directory_append (hhere : t.at? here = some (.directory entries)) (names : List String) :
    t.at? (here ++ names) = (directory entries).at? names := by
  rw [at?_append, hhere, Option.bind_some]

/-- What is listed for an input are files that it stands for. -/
theorem standsFor_of_mem (proper : t.Proper) (h : inputFiles t.find? input = .ok paths)
    (hpath : path ∈ paths) :
    ∃ place, t.leadsTo? path = some place ∧ t.StandsFor input (pathSteps path) place := by
  cases hfound : t.find? input with
  | none =>
    rw [inputFiles, hfound] at h
    cases h
  | some found =>
    obtain ⟨here, hlocate, hhere⟩ := find?_eq_some_iff.1 hfound
    have hleads := leadsTo?_of_locate? hlocate
    cases found with
    | file text =>
      rw [inputFiles_file hfound] at h
      cases h
      obtain rfl := List.mem_singleton.1 hpath
      exact ⟨here, hleads, .itself hlocate hhere⟩
    | directory entries =>
      rw [inputFiles_directory hfound, mapError_eq_ok_iff] at h
      obtain ⟨⟨name, t'⟩, hmem, found, hfound, hpath⟩ := (mem_schemaFilesBelow_iff h).1 hpath
      obtain ⟨hproper, -⟩ := proper.at? hhere
      cases hproper with
      | directory hnodup _ hentries =>
      obtain ⟨names, last, rfl, hlast, hname, text, hfile⟩ :=
        (mem_schemaFiles_iff (hentries _ hmem) hfound).1 hpath
      have hat : t.at? (here ++ name :: names) = some (.file text) := by
        rw [at?_directory_append hhere]
        exact (at?_cons_eq_some_iff hnodup).2 ⟨t', hmem, hfile⟩
      have hnames : ∀ n ∈ name :: names, ProperName n := fun n hn =>
        (proper.at? hat).2 n (List.mem_append_right _ hn)
      refine ⟨here ++ name :: names, leadsTo?_foldl_entryPath proper hleads (by rw [hat]; rfl), ?_⟩
      rw [pathSteps_foldl_entryPath (ne_empty_of_locate? hlocate) hnames]
      exact .below hlocate hhere hlast hname hat

/-- The files that an input stands for are listed for it. -/
theorem exists_mem_of_standsFor (proper : t.Proper) (h : inputFiles t.find? input = .ok paths)
    (hstands : t.StandsFor input steps place) :
    ∃ path ∈ paths, pathSteps path = steps ∧ t.leadsTo? path = some place := by
  cases hstands with
  | itself hlocate hplace =>
    rw [inputFiles_file (find?_eq_some_iff.2 ⟨place, hlocate, hplace⟩)] at h
    cases h
    exact ⟨input, List.mem_singleton_self _, rfl, leadsTo?_of_locate? hlocate⟩
  | @below here names last entries text hlocate hhere hlast hname hfile =>
    rw [inputFiles_directory (find?_eq_some_iff.2 ⟨here, hlocate, hhere⟩), mapError_eq_ok_iff] at h
    obtain ⟨hproper, -⟩ := proper.at? hhere
    have hnames : ∀ n ∈ names, ProperName n := fun n hn =>
      (proper.at? hfile).2 n (List.mem_append_right _ hn)
    refine ⟨names.foldl entryPath input, ?_,
      pathSteps_foldl_entryPath (ne_empty_of_locate? hlocate) hnames,
      leadsTo?_foldl_entryPath proper (leadsTo?_of_locate? hlocate) (by rw [hfile]; rfl)⟩
    rw [at?_directory_append hhere] at hfile
    cases names with
    | nil => cases hfile
    | cons name names =>
      cases hproper with
      | directory hnodup _ hentries =>
      obtain ⟨t', hmem, hfile⟩ := (at?_cons_eq_some_iff hnodup).1 hfile
      obtain ⟨found, hfound⟩ := exists_schemaFilesBelow_iff.1 ⟨_, h⟩ _ hmem
      refine (mem_schemaFilesBelow_iff h).2 ⟨_, hmem, found, hfound, ?_⟩
      exact (mem_schemaFiles_iff (hentries _ hmem) hfound).2
        ⟨names, last, rfl, hlast, hname, text, hfile⟩

/-- An input that exists is listed unless the path of a directory below it is too long. -/
theorem exists_inputFiles_iff (proper : t.Proper) (hfound : t.find? input = some found) :
    (∃ paths, inputFiles t.find? input = .ok paths) ↔ t.Searchable input := by
  obtain ⟨here, hlocate, hhere⟩ := find?_eq_some_iff.1 hfound
  cases found with
  | file text =>
    refine iff_of_true ⟨_, inputFiles_file hfound⟩ fun here' names entries hlocate' hne hat => ?_
    obtain rfl := Option.some_inj.1 (hlocate.symm.trans hlocate')
    rw [at?_append, hhere] at hat
    exact absurd (eq_nil_of_at?_file hat) hne
  | directory entries =>
    obtain ⟨hproper, -⟩ := proper.at? hhere
    cases hproper with
    | directory hnodup _ hentries =>
    rw [inputFiles_directory hfound]
    simp only [mapError_eq_ok_iff]
    rw [exists_schemaFilesBelow_iff]
    constructor
    · intro h here' names entries' hlocate' hne hat
      obtain rfl := Option.some_inj.1 (hlocate.symm.trans hlocate')
      rw [at?_directory_append hhere] at hat
      obtain ⟨name, names, rfl⟩ := List.exists_cons_of_ne_nil hne
      obtain ⟨t', hmem, hat⟩ := (at?_cons_eq_some_iff hnodup).1 hat
      exact (exists_schemaFiles_iff (hentries _ hmem)).1 (h _ hmem) names entries' hat
    · rintro h ⟨name, t'⟩ hmem
      refine (exists_schemaFiles_iff (hentries _ hmem)).2 fun names entries' hat => ?_
      refine h here (name :: names) entries' hlocate (List.cons_ne_nil _ _) ?_
      rw [at?_directory_append hhere]
      exact (at?_cons_eq_some_iff hnodup).2 ⟨t', hmem, hat⟩

/-! ### What all inputs stand for -/

theorem discover_eq_ok_iff {files : Files} :
    discover files inputs = .ok paths ↔
      ∃ found, inputs.mapM (inputFiles files) = .ok found ∧ sortedPaths found.flatten = paths := by
  rw [discover, bind_eq_ok_iff]
  exact exists_congr fun found => and_congr_right fun _ => Except.ok.injEq .. |>.to_iff

/-- The inputs are listed exactly if each one is. -/
theorem exists_discover_iff (proper : t.Proper)
    (hfound : ∀ i ∈ inputs, ∃ found, t.find? i = some found) :
    (∃ paths, discover t.find? inputs = .ok paths) ↔ ∀ i ∈ inputs, t.Searchable i := by
  have hmapM : (∃ paths, discover t.find? inputs = .ok paths) ↔
      ∃ found, inputs.mapM (inputFiles t.find?) = .ok found := by
    simp only [discover_eq_ok_iff]
    exact ⟨fun ⟨_, found, h, _⟩ => ⟨found, h⟩, fun ⟨found, h⟩ => ⟨_, found, h, rfl⟩⟩
  rw [hmapM, exists_mapM_eq_ok_iff]
  refine forall₂_congr fun i hi => ?_
  obtain ⟨found, hi⟩ := hfound i hi
  exact exists_inputFiles_iff proper hi

section Listed

variable (proper : t.Proper) (h : discover t.find? inputs = .ok paths)
include h

theorem ascending_discover : Ascending paths := by
  obtain ⟨found, -, rfl⟩ := discover_eq_ok_iff.1 h
  exact ascending_sortedPaths _

include proper

/-- What is listed are files that an input stands for, under the steps of the path. -/
theorem exists_standsFor_of_mem (hpath : path ∈ paths) :
    ∃ place, t.leadsTo? path = some place ∧
      ∃ input ∈ inputs, t.StandsFor input (pathSteps path) place := by
  obtain ⟨found, hfound, rfl⟩ := discover_eq_ok_iff.1 h
  obtain ⟨input, hinput, listed, hlisted, hmem⟩ :=
    (mem_flatten_of_mapM hfound).1 (mem_of_mem_sortedPaths hpath)
  obtain ⟨place, hleads, hstands⟩ := standsFor_of_mem proper hlisted hmem
  exact ⟨place, hleads, input, hinput, hstands⟩

/-- Every file that an input stands for is listed under the steps that it stands under. -/
theorem exists_mem_of_selected (hinput : input ∈ inputs) (hstands : t.StandsFor input steps place) :
    ∃ path ∈ paths, pathSteps path = steps ∧ t.leadsTo? path = some place := by
  have hpaths := h
  obtain ⟨found, hfound, rfl⟩ := discover_eq_ok_iff.1 h
  obtain ⟨listed, hlisted⟩ := exists_mapM_eq_ok_iff.1 ⟨_, hfound⟩ input hinput
  obtain ⟨p, hp, hsteps, hleads⟩ := exists_mem_of_standsFor proper hlisted hstands
  obtain ⟨q, hq, hqp⟩ :=
    exists_mem_sortedPaths ((mem_flatten_of_mapM hfound).2 ⟨input, hinput, listed, hlisted, hp⟩)
  refine ⟨q, hq, hqp.trans hsteps, ?_⟩
  -- Both paths lead somewhere, and their steps lead to one place.
  obtain ⟨place', hleads', -⟩ := exists_standsFor_of_mem proper hpaths hq
  rw [hleads', place_of_leadsTo? hleads', hqp, ← place_of_leadsTo? hleads]

/-- The steps that are listed are those that an input stands for a file under. -/
theorem mem_map_pathSteps_iff :
    steps ∈ paths.map pathSteps ↔ ∃ input ∈ inputs, ∃ place, t.StandsFor input steps place := by
  rw [List.mem_map]
  constructor
  · rintro ⟨path, hpath, rfl⟩
    obtain ⟨place, -, input, hinput, hstands⟩ := exists_standsFor_of_mem proper h hpath
    exact ⟨input, hinput, place, hstands⟩
  · rintro ⟨input, hinput, place, hstands⟩
    obtain ⟨path, hpath, hsteps, -⟩ := exists_mem_of_selected proper h hinput hstands
    exact ⟨path, hpath, hsteps⟩

/-- The order and the repetition of inputs make no difference. -/
theorem map_pathSteps_discover_eq {inputs' paths' : List String}
    (hsame : ∀ i, i ∈ inputs' ↔ i ∈ inputs)
    (h' : discover t.find? inputs' = .ok paths') : paths'.map pathSteps = paths.map pathSteps := by
  refine (ascending_discover h').map_pathSteps_eq (ascending_discover h) fun steps => ?_
  rw [mem_map_pathSteps_iff proper h, mem_map_pathSteps_iff proper h']
  simp only [hsame]

/-- **Each file is listed once** exactly if the inputs that stand for it agree on its steps. -/
theorem nodup_map_leadsTo?_iff :
    (paths.map t.leadsTo?).Nodup ↔
      ∀ i ∈ inputs, ∀ j ∈ inputs, ∀ place steps steps',
        t.StandsFor i steps place → t.StandsFor j steps' place → steps = steps' := by
  constructor
  · intro hnodup i hi j hj place steps steps' hstands hstands'
    obtain ⟨p, hp, rfl, hleads⟩ := exists_mem_of_selected proper h hi hstands
    obtain ⟨q, hq, rfl, hleads'⟩ := exists_mem_of_selected proper h hj hstands'
    rw [List.inj_on_of_nodup_map hnodup hp hq (hleads.trans hleads'.symm)]
  · intro hagree
    refine List.pairwise_map.2 ((ascending_discover h).imp_of_mem ?_)
    rintro p q hp hq ⟨-, hne⟩ hsame
    obtain ⟨place, hleads, i, hi, hstands⟩ := exists_standsFor_of_mem proper h hp
    obtain ⟨place', hleads', j, hj, hstands'⟩ := exists_standsFor_of_mem proper h hq
    obtain rfl := Option.some_inj.1 (hleads.symm.trans (hsame.trans hleads'))
    exact hne (hagree i hi j hj place _ _ hstands hstands')

end Listed

/-! ### Inputs that are spelled plainly -/

/-- The input is spelled without a dot in front and without two dots. -/
def SpelledPlainly (input : String) : Prop :=
  ∃ names : List String, pathSteps input = names.map .name

/-- An input that is spelled plainly stands for each file under the names that lead to it. -/
theorem StandsFor.steps_eq (hstands : t.StandsFor input steps place) (hplain : SpelledPlainly input) :
    steps = place.map .name := by
  obtain ⟨names, hnames⟩ := hplain
  have hplace : ∀ {here}, t.locate? input = some here → here = names := fun hlocate => by
    rw [place_of_leadsTo? (leadsTo?_of_locate? hlocate), hnames, stepsPlace, foldl_follow_names,
      List.nil_append]
  cases hstands with
  | itself hlocate _ => rw [hnames, hplace hlocate]
  | below hlocate _ _ _ _ => rw [hnames, hplace hlocate, List.map_append]

/-- **What is discovered**, in a tree whose entries have distinct names, for inputs that exist.

* The inputs are listed unless the path of a directory below one of them is too long.
* The paths are in strictly ascending order of their steps.
* Each path leads to a file that is at an input, or is a schema file below one.
* Every such file is led to by a path.
* The order and the repetition of the inputs make no difference to the steps of the paths.
* No file is listed twice if and only if the inputs that stand for it do so under the same steps.
* So no file is listed twice if the inputs are spelled without a dot in front and without two dots. -/
theorem discover_lists (proper : t.Proper) (hfound : ∀ i ∈ inputs, ∃ found, t.find? i = some found) :
    ((∃ paths, discover t.find? inputs = .ok paths) ↔ ∀ i ∈ inputs, t.Searchable i) ∧
    ∀ paths, discover t.find? inputs = .ok paths →
      Ascending paths ∧
      (∀ path ∈ paths, ∃ place, t.leadsTo? path = some place ∧ t.Selected inputs place) ∧
      (∀ place, t.Selected inputs place → ∃ path ∈ paths, t.leadsTo? path = some place) ∧
      (∀ inputs' : List String, (∀ i, i ∈ inputs' ↔ i ∈ inputs) →
        ∃ paths', discover t.find? inputs' = .ok paths' ∧
          paths'.map pathSteps = paths.map pathSteps) ∧
      ((paths.map t.leadsTo?).Nodup ↔
        ∀ i ∈ inputs, ∀ j ∈ inputs, ∀ place steps steps',
          t.StandsFor i steps place → t.StandsFor j steps' place → steps = steps') ∧
      ((∀ i ∈ inputs, SpelledPlainly i) → (paths.map t.leadsTo?).Nodup) := by
  refine ⟨exists_discover_iff proper hfound, fun paths h => ?_⟩
  have honce := nodup_map_leadsTo?_iff proper h
  refine ⟨ascending_discover h, fun path hpath => ?_, fun place hplace => ?_, fun inputs' hsame => ?_,
    honce, fun hplain => honce.2 ?_⟩
  · obtain ⟨place, hleads, input, hinput, hstands⟩ := exists_standsFor_of_mem proper h hpath
    exact ⟨place, hleads, input, hinput, _, hstands⟩
  · obtain ⟨input, hinput, steps, hstands⟩ := hplace
    obtain ⟨path, hpath, -, hleads⟩ := exists_mem_of_selected proper h hinput hstands
    exact ⟨path, hpath, hleads⟩
  · have hsearchable := (exists_discover_iff proper hfound).1 ⟨paths, h⟩
    obtain ⟨paths', h'⟩ := (exists_discover_iff proper fun i hi => hfound i ((hsame i).1 hi)).2
      fun i hi => hsearchable i ((hsame i).1 hi)
    exact ⟨paths', h', map_pathSteps_discover_eq proper h hsame h'⟩
  · intro i hi j hj place steps steps' hstands hstands'
    rw [hstands.steps_eq (hplain i hi), hstands'.steps_eq (hplain j hj)]

/-- A file, and a schema file in a directory. -/
def notesAndApi : FileTree :=
  directory [("notes", file none), ("api", directory [("a.json", file none)])]

/-- The directory and the file in it stand for one file. -/
theorem discover_lists_overlapping :
    ∃ paths, discover notesAndApi.find? ["api/a.json", "api", "notes"] = .ok paths ∧
      (paths.map notesAndApi.leadsTo?).Nodup := by
  have hname : ∀ name ∈ ["notes", "api", "a.json"], ProperName name := by
    intro name hname
    have hall : (["notes", "api", "a.json"].all fun n => isEntryName n && !n.toList.contains '/' &&
        PathStep.inner? n = some (.name n)) = true := by decide
    have hone := List.all_eq_true.1 hall name hname
    simp only [Bool.and_eq_true, Bool.not_eq_true', decide_eq_true_iff] at hone
    exact ⟨hone.1.1, by simpa using hone.1.2, hone.2⟩
  have hproper : notesAndApi.Proper := by
    refine .directory (by decide) ?_ ?_
    · simpa using ⟨hname "notes" (by decide), hname "api" (by decide)⟩
    · simpa using ⟨Proper.file, Proper.directory (by decide)
        (by simpa using hname "a.json" (by decide)) (by simpa using Proper.file)⟩
  have hspelled : ∀ i ∈ ["api/a.json", "api", "notes"], SpelledPlainly i := by
    simp only [List.forall_mem_cons, List.not_mem_nil, false_implies, implies_true, and_true]
    exact ⟨⟨["api", "a.json"], by decide⟩, ⟨["api"], by decide⟩, ⟨["notes"], by decide⟩⟩
  have hfound : ∀ i ∈ ["api/a.json", "api", "notes"], ∃ found, notesAndApi.find? i = some found := by
    simp only [List.forall_mem_cons, List.not_mem_nil, false_implies, implies_true, and_true]
    exact ⟨⟨_, rfl⟩, ⟨_, rfl⟩, ⟨_, rfl⟩⟩
  obtain ⟨-, hlists⟩ := discover_lists hproper hfound
  have hpaths : discover notesAndApi.find? ["api/a.json", "api", "notes"] =
      .ok ["api/a.json", "notes"] := by
    refine discover_eq_ok_iff.2 ⟨[["api/a.json"], ["api/a.json"], ["notes"]], by decide, ?_⟩
    rw [sortedPaths_of_pairwise (by decide)]
    decide
  exact ⟨_, hpaths, (hlists _ hpaths).2.2.2.2.2 hspelled⟩

/-- One file. -/
def oneFile : FileTree :=
  directory [("a.json", file none)]

/-- Two spellings of an input are two paths in the list, which lead to one file. -/
theorem discover_lists_twice :
    discover oneFile.find? ["./a.json", "a.json"] = .ok ["./a.json", "a.json"] ∧
      oneFile.leadsTo? "./a.json" = oneFile.leadsTo? "a.json" ∧
      oneFile.leadsTo? "a.json" = some ["a.json"] := by
  refine ⟨discover_eq_ok_iff.2 ⟨[["./a.json"], ["a.json"]], by decide, ?_⟩, by decide, by decide⟩
  rw [sortedPaths_of_pairwise (by decide)]
  decide

end FileTree

end ApiTypings
