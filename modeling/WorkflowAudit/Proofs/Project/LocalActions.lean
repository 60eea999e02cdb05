import WorkflowAudit.Project
import WorkflowAudit.Proofs.Lists.Basic
import WorkflowAudit.Proofs.Path.Joins
import WorkflowAudit.Proofs.Project.Walks
import WorkflowAudit.Proofs.Table.Writing
import WorkflowAudit.Proofs.Text.Parts

/-!
What references to local actions resolve to. The files below the root of a project are visited in some order
and each adds what it defines to an index. The invariant of that is what a directory has in the index after
some visits: the definition in the last `action.yml` of it that was visited, or else that in the first
`action.yaml`. Main statement: since no file is visited twice, the order is of no account, and a reference
resolves to what `action.yml` or else `action.yaml` defines in the directory that it names, whatever the
path of the root.
-/

namespace WorkflowAudit

namespace ActionIndex

open WorkflowAudit.Path

/-! ### Visits in any order -/

section Visits

variable (root : String)

/-- What a file defines for a directory, if the file has this name. -/
def definedBy (name directory : String) (file : String × ByteArray) : Option ActionDefinition :=
  if fileName? file.1 = some name ∧ directoryOf root file.1 = directory then
    definitionIn? file.1 file.2
  else none

theorem fileName?_of_definitionIn? {path : String} {content : ByteArray} {action : ActionDefinition}
    (h : definitionIn? path content = some action) :
    fileName? path = some "action.yml" ∨ fileName? path = some "action.yaml" := by
  simp only [definitionIn?, Option.bind_eq_bind, Option.bind_eq_some_iff] at h
  obtain ⟨_, hguard, -⟩ := h
  cases hname : fileName? path with
  | none => simp [hname] at hguard
  | some name => simpa [hname, definitionNames] using hguard

/-- One visit: the main file of a directory is put first, the other one last. -/
theorem lookup_add (index : ActionIndex) (file : String × ByteArray) (directory : String) :
    (add root index file).actions.lookup directory =
      (definedBy root "action.yml" directory file).or
        ((index.actions.lookup directory).or (definedBy root "action.yaml" directory file)) := by
  cases hdef : definitionIn? file.1 file.2 with
  | none => simp [add, definedBy, hdef]
  | some action =>
    simp only [add, hdef, definedBy]
    by_cases hdir : directoryOf root file.1 = directory
    · subst hdir
      rcases fileName?_of_definitionIn? hdef with hname | hname
      · simp [hname, definitionNames, Table.lookup_insert]
      · cases hold : index.actions.lookup (directoryOf root file.1) with
        | none => simp [hname, definitionNames, Table.lookup_insert]
        | some old => simp [hname, definitionNames, hold]
    · have hother : directory ≠ directoryOf root file.1 := Ne.symm hdir
      split <;> simp [hdir, Table.lookup_insert, hother]

/-- After some visits a directory has what its last main file defines, or what was there before, or what
    the first of its other files defines. -/
theorem lookup_foldl_add (visited : List (String × ByteArray)) (index : ActionIndex) (directory : String) :
    (visited.foldl (add root) index).actions.lookup directory =
      (visited.reverse.findSome? (definedBy root "action.yml" directory)).or
        ((index.actions.lookup directory).or
          (visited.findSome? (definedBy root "action.yaml" directory))) := by
  induction visited generalizing index with
  | nil => simp
  | cons file visited ih =>
    have hcons (name : String) (files : List (String × ByteArray)) :
        (file :: files).findSome? (definedBy root name directory) =
          (definedBy root name directory file).or (files.findSome? (definedBy root name directory)) := by
      rw [List.findSome?_cons]
      cases definedBy root name directory file <;> rfl
    rw [List.foldl_cons, ih, lookup_add, List.reverse_cons, List.findSome?_append, hcons, hcons]
    simp [Option.or_assoc]

end Visits

/-! ### Files below a root -/

end ActionIndex

/-- Files below a directory, each by the names that lead to it from there. -/
structure FilesBelow where
  files : List (List String × ByteArray)
  named : ∀ file ∈ files, file.1 ≠ [] ∧ ∀ name ∈ file.1, Path.IsName name
  distinct : (files.map (·.1)).Nodup

namespace FilesBelow

/-- The files with their paths from a root. -/
def paths (below : FilesBelow) (root : String) : List (String × ByteArray) :=
  below.files.map fun file => (Path.descend root file.1, file.2)

/-- What the file of this name in a directory defines; nothing if it is not there, no text or malformed. -/
def definition? (below : FilesBelow) (directory : List String) (name : String) : Option ActionDefinition :=
  ((below.files.lookup (directory ++ [name])).bind String.fromUTF8?).bind ActionDefinition.parse?

/-- The action of a directory. -/
def action? (below : FilesBelow) (directory : List String) : Option ActionDefinition :=
  (below.definition? directory "action.yml").or (below.definition? directory "action.yaml")

end FilesBelow

namespace ActionIndex

open WorkflowAudit.Path

/-- The names of a file below the root are found in its path. -/
theorem definedBy_descend (root : String) {name : String} (hname : name ∈ definitionNames)
    {directory file : List String} (hdirectory : ∀ name ∈ directory, IsName name) (hne : file ≠ [])
    (hfile : ∀ name ∈ file, IsName name) (content : ByteArray) :
    definedBy root name (ofNames directory) (descend root file, content) =
      if file = directory ++ [name] then (String.fromUTF8? content).bind ActionDefinition.parse?
      else none := by
  obtain ⟨front, last, rfl⟩ := (List.eq_nil_or_concat file).resolve_left hne
  rw [List.concat_eq_append] at hfile ⊢
  obtain ⟨hfront, hlast⟩ := List.forall_mem_append.1 hfile
  rw [List.forall_mem_singleton] at hlast
  have hlastName : fileName? (descend root (front ++ [last])) = some last := by
    rw [descend_concat, fileName?_join_name hlast]
  have hdir : directoryOf root (descend root (front ++ [last])) = ofNames front := by
    rw [directoryOf, parent?_descend hfront hlast]
    rfl
  have hsame : front ++ [last] = directory ++ [name] ↔ last = name ∧ front = directory := by
    rw [← List.concat_eq_append, ← List.concat_eq_append, List.concat_inj, and_comm]
  simp only [definedBy, hlastName, hdir, Option.some.injEq, ofNames_inj hfront hdirectory, hsame]
  split
  · rename_i h
    obtain ⟨rfl, rfl⟩ := h
    simp [definitionIn?, hlastName, hname]
  · rfl

section Order

variable {root : String} {below : FilesBelow} {visited : List (String × ByteArray)}
  {directory : List String}

theorem findSome?_definedBy (hvisited : ∀ file, file ∈ visited ↔ file ∈ below.paths root) {name : String}
    (hname : name ∈ definitionNames) (hdirectory : ∀ name ∈ directory, IsName name) :
    visited.findSome? (definedBy root name (ofNames directory)) = below.definition? directory name := by
  have hone (file : List String × ByteArray) (hfile : file ∈ below.files) :=
    definedBy_descend root hname hdirectory (below.named file hfile).1 (below.named file hfile).2 file.2
  refine List.findSome?_eq_of_only (fun item hitem => ?_) fun hne => ?_
  · obtain ⟨file, hfile, rfl⟩ := List.mem_map.1 ((hvisited item).1 hitem)
    rw [hone file hfile]
    split
    · rename_i hplace
      rw [FilesBelow.definition?, ← hplace, Table.lookup_of_mem below.distinct hfile]
      exact .inr rfl
    · exact .inl rfl
  · cases hcontent : below.files.lookup (directory ++ [name]) with
    | none => simp [FilesBelow.definition?, hcontent] at hne
    | some content =>
      obtain ⟨before, after, hfiles, -⟩ := List.lookup_eq_some_iff.1 hcontent
      have hfile : (directory ++ [name], content) ∈ below.files := by simp [hfiles]
      refine ⟨_, (hvisited _).2 (List.mem_map.2 ⟨_, hfile, rfl⟩), ?_⟩
      rw [hone _ hfile, if_pos rfl, FilesBelow.definition?, hcontent]
      rfl

theorem lookup_ofFiles (h : visited.Perm (below.paths root)) (hdirectory : ∀ name ∈ directory, IsName name) :
    (ofFiles root visited).actions.lookup (ofNames directory) = below.action? directory := by
  have hvisited : ∀ file, file ∈ visited ↔ file ∈ below.paths root := fun _ => h.mem_iff
  have hreversed : ∀ file, file ∈ visited.reverse ↔ file ∈ below.paths root := fun file =>
    List.mem_reverse.trans (hvisited file)
  rw [ofFiles, lookup_foldl_add, findSome?_definedBy hvisited (by decide) hdirectory,
    findSome?_definedBy hreversed (by decide) hdirectory]
  rfl

/-- A directory in the index is one with a file that defines its action. -/
theorem exists_of_lookup_ofFiles (h : visited.Perm (below.paths root)) {key : String}
    {action : ActionDefinition} (hlookup : (ofFiles root visited).actions.lookup key = some action) :
    ∃ directory, (∀ name ∈ directory, IsName name) ∧ key = ofNames directory := by
  have hfile : ∃ name, ∃ file ∈ visited, (definedBy root name key file).isSome := by
    have hempty : ({} : ActionIndex).actions.lookup key = none := rfl
    rw [ofFiles, lookup_foldl_add, hempty, Option.none_or, Option.or_eq_some_iff] at hlookup
    rcases hlookup with hmain | ⟨-, hother⟩
    · obtain ⟨file, hfile, hdefined⟩ := List.exists_of_findSome?_eq_some hmain
      exact ⟨"action.yml", file, List.mem_reverse.1 hfile, by simp [hdefined]⟩
    · obtain ⟨file, hfile, hdefined⟩ := List.exists_of_findSome?_eq_some hother
      exact ⟨"action.yaml", file, hfile, by simp [hdefined]⟩
  obtain ⟨name, item, hitem, hsome⟩ := hfile
  obtain ⟨file, hfile, rfl⟩ := List.mem_map.1 (h.mem_iff.1 hitem)
  obtain ⟨hne, hnames⟩ := below.named file hfile
  obtain ⟨front, last, hlast⟩ := (List.eq_nil_or_concat file.1).resolve_left hne
  rw [List.concat_eq_append] at hlast
  rw [hlast, List.forall_mem_append, List.forall_mem_singleton] at hnames
  refine ⟨front, hnames.1, ?_⟩
  have hkey : directoryOf root (descend root file.1) = key := by
    by_contra hkey
    simp [definedBy, hkey] at hsome
  rw [← hkey, hlast, directoryOf, parent?_descend hnames.1 hnames.2]
  rfl

end Order

/-! ### References -/

/-- A reference to a directory, with slashes at its end. -/
def reference (directory : List String) (slashes : Nat) : String :=
  "./" ++ ofNames directory ++ String.ofList (List.replicate slashes '/')

theorem getLast?_ofNames {directory : List String} (h : ∀ name ∈ directory, IsName name) :
    (ofNames directory).toList.getLast? ≠ some '/' := by
  intro hslash
  obtain ⟨cs, hcs⟩ := List.getLast?_eq_some_iff.1 hslash
  have hend : parts (ofNames directory) = parts (String.ofList cs) ++ [""] := by
    have htext : ofNames directory = String.ofList cs ++ "/" ++ "" :=
      String.toList_injective (by simp [hcs])
    rw [htext, parts_append_slash]
    rfl
  rcases eq_or_ne directory [] with rfl | hne
  · simp [ofNames] at hcs
  · rw [parts_ofNames hne h] at hend
    exact (h "" (by simp [hend])).ne_empty rfl

theorem directory?_reference {directory : List String} (h : ∀ name ∈ directory, IsName name)
    (slashes : Nat) : directory? (reference directory slashes) = some (ofNames directory) := by
  have hlead : Text.stripLead? ['.', '/'] (reference directory slashes).toList =
      some ((ofNames directory).toList ++ List.replicate slashes '/') := by
    simp [reference, Text.stripLead?]
  have hdrop : (ofNames directory).toList.reverse.dropWhile (· = '/') =
      (ofNames directory).toList.reverse := by
    have hlast := getLast?_ofNames h
    rw [← List.head?_reverse] at hlast
    cases hreverse : (ofNames directory).toList.reverse with
    | nil => rfl
    | cons c cs =>
      rw [hreverse] at hlast
      simpa using hlast
  have hslashes (n : Nat) (cs : List Char) :
      (List.replicate n '/' ++ cs).dropWhile (· = '/') = cs.dropWhile (· = '/') := by
    induction n with
    | zero => rfl
    | succ n ih => simp [List.replicate_succ, ih]
  rw [directory?, hlead]
  simp [hslashes, hdrop]

theorem eq_of_directory? {text key : String} (h : directory? text = some key) :
    ∃ slashes, text = "./" ++ key ++ String.ofList (List.replicate slashes '/') := by
  obtain ⟨path, hpath, hkey⟩ := Option.bind_eq_some_iff.1 h
  rw [Text.stripLead?_eq_some_iff] at hpath
  obtain rfl := Option.some.inj hkey
  -- The characters that are cut off at the end are slashes.
  have hslashes : path.reverse.takeWhile (· = '/') =
      List.replicate (path.reverse.takeWhile (· = '/')).length '/' :=
    List.eq_replicate_of_mem fun c hc => by simpa using List.mem_takeWhile_imp hc
  refine ⟨(path.reverse.takeWhile (· = '/')).length, String.toList_injective ?_⟩
  have hwhole := congrArg List.reverse (List.takeWhile_append_dropWhile (p := (· = '/')) (l := path.reverse))
  rw [List.reverse_append, List.reverse_reverse, hslashes, List.reverse_replicate] at hwhole
  rw [hpath]
  simp [hwhole]

theorem startsWith_reference (directory : List String) (slashes : Nat) :
    Text.startsWith (reference directory slashes) "./" = true := by
  rw [Text.startsWith_iff, reference, String.append_assoc, String.toList_append]
  exact List.prefix_append _ _

/-- References resolve to the actions that files define: one that is written from names resolves to the
    action of the directory that they lead to, however many slashes follow, and any other to nothing. -/
structure Resolves (index : ActionIndex) (below : FilesBelow) : Prop where
  directory : ∀ directory slashes, (∀ name ∈ directory, IsName name) →
    index.lookup? (reference directory slashes) = below.action? directory
  other : ∀ text, (∀ directory slashes, (∀ name ∈ directory, IsName name) →
    text ≠ reference directory slashes) → index.lookup? text = none
  unmarked : ∀ text, Text.startsWith text "./" = false → index.lookup? text = none

theorem resolves_ofFiles {root : String} {below : FilesBelow} {visited : List (String × ByteArray)}
    (h : visited.Perm (below.paths root)) : (ofFiles root visited).Resolves below := by
  have hother (text : String) (htext : ∀ directory slashes, (∀ name ∈ directory, IsName name) →
      text ≠ reference directory slashes) : (ofFiles root visited).lookup? text = none := by
    rw [Option.eq_none_iff_forall_ne_some]
    intro action hlookup
    obtain ⟨key, hkey, haction⟩ := Option.bind_eq_some_iff.1 hlookup
    obtain ⟨slashes, hslashes⟩ := eq_of_directory? hkey
    obtain ⟨directory, hdirectory, rfl⟩ := exists_of_lookup_ofFiles h haction
    exact htext directory slashes hdirectory hslashes
  refine ⟨fun directory slashes hdirectory => ?_, hother, fun text htext => ?_⟩
  · rw [lookup?, directory?_reference hdirectory]
    exact lookup_ofFiles h hdirectory
  · refine hother text fun directory slashes _ heq => ?_
    rw [heq, startsWith_reference] at htext
    cases htext

end ActionIndex

/-! ### Projects -/

/-- The files of a tree that a walk comes to. -/
def FilesBelow.ofTree (t : FileTree) (h : t.wellNamed = true) : FilesBelow where
  files := t.walk
  named file hfile := by
    obtain ⟨heads, hwalk⟩ := FileTree.isWalk_walk h
    obtain ⟨head, -, rest, hrest⟩ := hwalk.heads file hfile
    exact ⟨by simp [hrest], hwalk.named file hfile⟩
  distinct := by
    obtain ⟨heads, hwalk⟩ := FileTree.isWalk_walk h
    exact hwalk.distinct

namespace ActionIndex

/-- Whatever the path of the root and the order in which the files below it are visited, a reference to a
    directory resolves to what its `action.yml` defines if that is well formed, or else to what its
    `action.yaml` defines, and all other references resolve to nothing. In particular this holds of the
    index of a project, whose walk comes to each file once. -/
theorem references_resolve_in_any_order (root : String) :
    (∀ (below : FilesBelow) (visited : List (String × ByteArray)), visited.Perm (below.paths root) →
      (ofFiles root visited).Resolves below) ∧
    ∀ (d : Disk) (entries : List (String × FileTree)) (h : (FileTree.dir entries).wellNamed = true),
      d.lookup root = .ok (.dir entries) → (ofProject d root).Resolves (.ofTree (.dir entries) h) := by
  refine ⟨fun below visited hvisited => resolves_ofFiles hvisited, fun d entries h hroot => ?_⟩
  have hindex : ofProject d root = ofFiles root ((FilesBelow.ofTree (.dir entries) h).paths root) := by
    rw [ofProject, hroot]
    rfl
  rw [hindex]
  exact resolves_ofFiles (.refl _)

/-- Three files: a malformed one beside one that counts less, and one of the root. -/
def mixedFiles : FilesBelow where
  files := [
    (["tools", "lint", "action.yml"], "name: [".toUTF8),
    (["tools", "lint", "action.yaml"], "name: Lint".toUTF8),
    (["action.yml"], "name: Root".toUTF8)]
  named := by decide
  distinct := by decide

/-- The entries of a directory with these files. -/
def mixedEntries : List (String × FileTree) := [
  ("tools", .dir [("lint", .dir [
    ("action.yml", .file "name: [".toUTF8),
    ("action.yaml", .file "name: Lint".toUTF8)])]),
  ("action.yml", .file "name: Root".toUTF8)]

theorem mixedFiles_resolve_backwards :
    let visited := (mixedFiles.paths "./w//").reverse
    let disk : Disk := ⟨.dir [("w", .dir mixedEntries)], []⟩
    visited.Perm (mixedFiles.paths "./w//") ∧
      (ofFiles "./w//" visited).lookup? "./tools/lint//" = some ⟨some "Lint", none⟩ ∧
      (ofFiles "./w//" visited).lookup? "./" = some ⟨some "Root", none⟩ ∧
      (ofFiles "./w//" visited).lookup? "tools/lint" = none ∧
      disk.lookup "./w//" = .ok (.dir mixedEntries) ∧
      ∃ h, (ofProject disk "./w//").Resolves (.ofTree (.dir mixedEntries) h) := by
  intro visited disk
  have hperm : visited.Perm (mixedFiles.paths "./w//") := List.reverse_perm _
  have hdisk : disk.lookup "./w//" = .ok (.dir mixedEntries) := rfl
  have hnamed : (FileTree.dir mixedEntries).wellNamed = true := by decide +kernel
  obtain ⟨hany, hproject⟩ := references_resolve_in_any_order "./w//"
  have hresolves := hany mixedFiles visited hperm
  have hlint : mixedFiles.action? ["tools", "lint"] = some ⟨some "Lint", none⟩ := by decide +kernel
  have hroot : mixedFiles.action? [] = some ⟨some "Root", none⟩ := by decide +kernel
  refine ⟨hperm, ?_, ?_, hresolves.unmarked _ (by decide), hdisk, hnamed, ?_⟩
  · rw [← hlint, ← hresolves.directory ["tools", "lint"] 2 (by decide)]
    rfl
  · rw [← hroot, ← hresolves.directory [] 0 (by decide)]
    rfl
  · exact hproject disk mixedEntries hnamed hdisk

end ActionIndex

end WorkflowAudit
