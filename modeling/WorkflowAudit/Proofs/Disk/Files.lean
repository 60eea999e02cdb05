import WorkflowAudit.Disk.Write
import WorkflowAudit.Proofs.Path.Places

/-!
The files of a disk and what changes them. A tree is seen as the files that it has at its places. Main
statements: making directories changes no file, and writing a file changes the one at the place that
its path leads to.
-/

namespace WorkflowAudit

namespace FileTree

/-- There is a file with these bytes at a place. -/
def HasFile (t : FileTree) (place : List String) (content : ByteArray) : Prop :=
  t.find? place = some (.file content)

theorem not_hasFile_nil {t : FileTree} (h : t.isDir = true) (content : ByteArray) :
    ¬ t.HasFile [] content := by
  intro hfile
  cases Option.some.inj hfile
  cases h

theorem hasFile_cons_of_child? {t child : FileTree} {name : String} (h : t.child? name = some child)
    (place : List String) (content : ByteArray) :
    t.HasFile (name :: place) content ↔ child.HasFile place content := by
  rw [HasFile, find?, h]
  rfl

theorem not_hasFile_cons {t : FileTree} {name : String} (h : t.child? name = none)
    (place : List String) (content : ByteArray) : ¬ t.HasFile (name :: place) content := by
  rw [HasFile, find?, h]
  exact fun hfile => by cases hfile

theorem isDir_of_child? {t child : FileTree} {name : String} (h : t.child? name = some child) :
    t.isDir = true := by
  cases t with
  | dir entries => rfl
  | file content => cases h

/-- A place with a file below it has a directory. -/
theorem not_hasFile_of_append {t : FileTree} {place below : List String} {content : ByteArray}
    (hne : below ≠ []) (h : t.HasFile (place ++ below) content) (other : ByteArray) :
    ¬ t.HasFile place other := by
  induction place generalizing t with
  | nil =>
    obtain ⟨name, rest, rfl⟩ := List.exists_cons_of_ne_nil hne
    cases hchild : t.child? name with
    | none => exact absurd h (not_hasFile_cons hchild _ _)
    | some child => exact not_hasFile_nil (isDir_of_child? hchild) other
  | cons name place ih =>
    rw [List.cons_append] at h
    cases hchild : t.child? name with
    | none => exact absurd h (not_hasFile_cons hchild _ _)
    | some child =>
      rw [hasFile_cons_of_child? hchild] at h ⊢
      exact ih h

/-- What is below a place is below a directory. -/
theorem exists_dir_of_append {t : FileTree} {place below : List String} {content : ByteArray}
    (hne : below ≠ []) (h : t.HasFile (place ++ below) content) :
    ∃ entries, t.find? place = some (.dir entries) := by
  have hfile := not_hasFile_of_append hne h
  induction place generalizing t with
  | nil =>
    cases t with
    | dir entries => exact ⟨entries, rfl⟩
    | file other => exact absurd rfl (hfile other)
  | cons name place ih =>
    rw [List.cons_append] at h
    cases hchild : t.child? name with
    | none => exact absurd h (not_hasFile_cons hchild _ _)
    | some child =>
      rw [hasFile_cons_of_child? hchild] at h
      rw [find?, hchild]
      exact ih h fun other => by simpa only [hasFile_cons_of_child? hchild] using hfile other

/-! ### Changes of a tree -/

theorem lookup_map_replace (entries : List (String × FileTree)) (name n : String) (child : FileTree) :
    (entries.map fun e => if e.1 = name then (name, child) else e).lookup n =
      if n = name then (if entries.any (·.1 = name) then some child else none)
      else entries.lookup n := by
  induction entries with
  | nil => simp
  | cons e entries ih =>
    rw [List.map_cons, List.lookup_cons, List.lookup_cons, ih, List.any_cons]
    by_cases hn : n = name
    · subst hn
      by_cases he : e.1 = n
      · simp [he]
      · rw [decide_eq_false he, Bool.false_or, if_neg he, if_pos rfl, if_pos rfl,
          beq_eq_false_iff_ne.2 (Ne.symm he)]
    · by_cases he : e.1 = name
      · simp [he, hn, beq_eq_false_iff_ne.2 hn]
      · simp [he, hn]

theorem lookup_of_any_eq_false {entries : List (String × FileTree)} {name : String}
    (h : ¬ entries.any (·.1 = name) = true) : entries.lookup name = none := by
  rw [List.lookup_eq_none_iff]
  intro e he
  rw [bne_iff_ne]
  rintro rfl
  exact h (List.any_eq_true.2 ⟨e, he, decide_eq_true rfl⟩)

theorem child?_setChild (t : FileTree) (name n : String) (child : FileTree) :
    (t.setChild name child).child? n = if n = name then some child else t.child? n := by
  have hgeneral (entries : List (String × FileTree)) :
      (if entries.any (·.1 = name) then
          FileTree.dir (entries.map fun e => if e.1 = name then (name, child) else e)
        else .dir (entries ++ [(name, child)])).child? n =
        if n = name then some child else entries.lookup n := by
    split
    · rename_i hany
      rw [child?, lookup_map_replace, if_pos hany]
    · rename_i hany
      rw [child?, List.lookup_append]
      by_cases hn : n = name
      · subst hn
        simp [lookup_of_any_eq_false hany]
      · simp [hn, List.lookup_cons, beq_eq_false_iff_ne.2 hn]
  cases t with
  | dir entries => exact hgeneral entries
  | file content => exact hgeneral []

theorem isDir_setChild (t : FileTree) (name : String) (child : FileTree) :
    (t.setChild name child).isDir = true := by
  simp only [setChild]
  split <;> split <;> rfl

theorem hasFile_setChild_self (t : FileTree) (name : String) (child : FileTree) (place : List String)
    (content : ByteArray) :
    (t.setChild name child).HasFile (name :: place) content ↔ child.HasFile place content :=
  hasFile_cons_of_child? (by rw [child?_setChild, if_pos rfl]) place content

theorem hasFile_setChild_of_ne {n name : String} (hn : n ≠ name) (t child : FileTree)
    (place : List String) (content : ByteArray) :
    (t.setChild name child).HasFile (n :: place) content ↔ t.HasFile (n :: place) content := by
  rw [HasFile, HasFile, find?, find?, child?_setChild, if_neg hn]

/-- Making directories changes no file. -/
theorem hasFile_makeDirs? {t t' : FileTree} {names : List String} (h : t.makeDirs? names = some t')
    (place : List String) (content : ByteArray) : t'.HasFile place content ↔ t.HasFile place content := by
  induction names generalizing t t' place with
  | nil =>
    rw [makeDirs?] at h
    split at h
    · cases h
      exact Iff.rfl
    · cases h
  | cons name names ih =>
    rw [makeDirs?] at h
    split at h
    · rename_i hdir
      obtain ⟨child', hchild', rfl⟩ := Option.map_eq_some_iff.1 h
      cases place with
      | nil =>
        exact iff_of_false (not_hasFile_nil (isDir_setChild ..) content) (not_hasFile_nil hdir content)
      | cons n place =>
        by_cases hn : n = name
        · subst hn
          rw [hasFile_setChild_self, ih hchild']
          cases hchild : t.child? n with
          | some child => rw [hasFile_cons_of_child? hchild, Option.getD_some]
          | none =>
            -- What is made where nothing was is an empty directory.
            refine iff_of_false (fun hfile => ?_) (not_hasFile_cons hchild place content)
            cases place with
            | nil => exact not_hasFile_nil rfl content hfile
            | cons m place => exact not_hasFile_cons rfl place content hfile
        · exact hasFile_setChild_of_ne hn t child' place content
    · cases h

theorem write?_cons {t t' : FileTree} {bytes : ByteArray} {name : String} {names : List String}
    (h : t.write? bytes (name :: names) = some t') :
    t.isDir = true ∧ ∃ child', t' = t.setChild name child' ∧
      ∀ place content, child'.HasFile place content ↔
        if place = names then content = bytes else t.HasFile (name :: place) content := by
  induction names generalizing t t' name with
  | nil =>
    rw [write?] at h
    split at h
    · cases h
    · rename_i hfree
      simp only [Bool.or_eq_true, Bool.not_eq_true', not_or, Bool.not_eq_false, Bool.not_eq_true] at hfree
      cases h
      refine ⟨hfree.1, .file bytes, rfl, fun place content => ?_⟩
      cases place with
      | nil =>
        rw [if_pos rfl, HasFile, find?, Option.some.injEq, FileTree.file.injEq]
        exact eq_comm
      | cons m place =>
        rw [if_neg (List.cons_ne_nil m place)]
        refine iff_of_false (not_hasFile_cons rfl place content) ?_
        cases hchild : t.child? name with
        | none => exact not_hasFile_cons hchild _ content
        | some child =>
          rw [hasFile_cons_of_child? hchild]
          cases child with
          | file old => exact not_hasFile_cons rfl place content
          | dir entries =>
            rw [hchild] at hfree
            exact absurd hfree.2 (by simp [isDir])
  | cons m names ih =>
    rw [write?] at h
    · obtain ⟨child', hchild', rfl⟩ := Option.map_eq_some_iff.1 h
      obtain ⟨child, hchild, hwrite⟩ := Option.bind_eq_some_iff.1 hchild'
      obtain ⟨hdir, grandchild, rfl, hfiles⟩ := ih hwrite
      refine ⟨isDir_of_child? hchild, _, rfl, fun place content => ?_⟩
      rw [hasFile_cons_of_child? hchild]
      cases place with
      | nil =>
        rw [if_neg (List.cons_ne_nil m names).symm]
        exact iff_of_false (not_hasFile_nil (isDir_setChild ..) content) (not_hasFile_nil hdir content)
      | cons n place =>
        by_cases hn : n = m
        · subst hn
          rw [hasFile_setChild_self, hfiles]
          simp only [List.cons.injEq, true_and]
        · rw [hasFile_setChild_of_ne hn, if_neg fun heq => hn (List.cons.inj heq).1]
    · exact List.cons_ne_nil m names

/-- Writing a file changes no other. -/
theorem hasFile_write? {t t' : FileTree} {bytes : ByteArray} {names : List String} (hne : names ≠ [])
    (h : t.write? bytes names = some t') (place : List String) (content : ByteArray) :
    t'.HasFile place content ↔ if place = names then content = bytes else t.HasFile place content := by
  obtain ⟨name, names, rfl⟩ := List.exists_cons_of_ne_nil hne
  obtain ⟨hdir, child', rfl, hfiles⟩ := write?_cons h
  cases place with
  | nil =>
    rw [if_neg (List.cons_ne_nil name names).symm]
    exact iff_of_false (not_hasFile_nil (isDir_setChild ..) content) (not_hasFile_nil hdir content)
  | cons n place =>
    by_cases hn : n = name
    · subst hn
      rw [hasFile_setChild_self, hfiles]
      simp only [List.cons.injEq, true_and]
    · rw [hasFile_setChild_of_ne hn, if_neg fun heq => hn (List.cons.inj heq).1]

end FileTree

namespace Disk

open WorkflowAudit.Path

/-- The second disk has the files of the first, and relative paths start from the same directory. -/
def SameFiles (d d' : Disk) : Prop :=
  d'.cwd = d.cwd ∧ ∀ place content, d'.root.HasFile place content ↔ d.root.HasFile place content

theorem SameFiles.refl (d : Disk) : SameFiles d d :=
  ⟨rfl, fun _ _ => Iff.rfl⟩

theorem SameFiles.trans {d e f : Disk} (h₁ : SameFiles d e) (h₂ : SameFiles e f) : SameFiles d f :=
  ⟨h₂.1.trans h₁.1, fun place content => (h₂.2 place content).trans (h₁.2 place content)⟩

/-! ### Where a path leads -/

theorem reverse_eq_of_follow {root : FileTree} {start found body : List String}
    (h : follow root start body = .ok found) : found.reverse = body.foldl goOn start.reverse := by
  induction body generalizing start with
  | nil =>
    cases h
    rfl
  | cons part body ih =>
    rw [follow] at h
    split at h
    · cases h
    · cases h
    · rw [List.foldl_cons, goOn]
      split at h
      · rw [if_pos ‹_›]
        exact ih h
      · rw [if_neg ‹_›]
        split at h
        · rw [if_pos ‹_›, ih h, List.drop_one, List.dropLast_reverse]
        · rw [if_neg ‹_›]
          split at h
          · rw [ih h, List.reverse_cons]
          · cases h

/-- The name that a path ends with is looked up in the directory that its other parts lead to. -/
theorem place_of_placeOf {d : Disk} {path name : String} {dir : List String}
    (h : d.placeOf path = .ok (dir, name)) (hname : isName name = true) :
    place d.cwd path = dir ++ [name] := by
  simp only [placeOf] at h
  -- Parts that are cut off at the end are empty, so they lead nowhere.
  have hcut (start : List String) : (parts path).foldl goOn start =
      (((parts path).reverse.dropWhile (· = "")).reverse).foldl goOn start := by
    rw [foldl_goOn_named, foldl_goOn_named (List.reverse _), named_reverse_dropWhile]
    intro part hpart
    rw [of_decide_eq_true hpart]
    decide
  generalize ((parts path).reverse.dropWhile (· = "")).reverse = body at h hcut
  split at h
  · cases h
  · rename_i last hlast
    obtain ⟨front, rfl⟩ := List.getLast?_eq_some_iff.1 hlast
    split at h
    · cases h
    · cases h
    · rename_i found hfollow
      split at h
      · cases h
        simp only [isName, Bool.and_eq_true, Bool.not_eq_true', decide_eq_true_eq] at hname
        rw [List.dropLast_concat] at hfollow
        have hstart : (if isAbsolute path then [] else d.cwd.reverse).reverse =
            if isAbsolute path then [] else d.cwd := by
          split
          · rfl
          · exact List.reverse_reverse _
        rw [place, hcut, List.foldl_append, List.foldl_cons, List.foldl_nil, goOn_name hname.1 hname.2,
          reverse_eq_of_follow hfollow, hstart]
      · cases h

/-! ### Changes of a disk -/

theorem sameFiles_makeDir {d d' : Disk} {path : String} (h : d.makeDir path = .ok d') :
    SameFiles d d' := by
  rw [makeDir] at h
  cases hplace : d.placeOf path with
  | error e =>
    rw [hplace] at h
    cases h
  | ok found =>
    rw [hplace] at h
    change (if _ then _ else _) = Except.ok d' at h
    split at h
    · cases h
    · split at h
      · rename_i root hroot
        cases h
        exact ⟨rfl, FileTree.hasFile_makeDirs? hroot⟩
      · cases h

/-- Making directories changes no file, whether or not it comes to its end. -/
theorem sameFiles_makeDirs (d : Disk) (path : String) : SameFiles d (d.makeDirs path).1 := by
  rw [makeDirs]
  generalize path.length + 2 = limit
  induction limit generalizing d path with
  | zero => exact .refl d
  | succ limit ih =>
    rw [makeDirs.go]
    split
    · exact .refl d
    · split
      · exact sameFiles_makeDir ‹_›
      · exact .refl d
      · split
        · exact .refl d
        · rename_i dir _
          have hdir := ih d dir
          cases hgo : makeDirs.go limit d dir with
          | mk e made =>
            rw [hgo] at hdir
            cases made with
            | false => exact hdir
            | true =>
              cases hmake : e.makeDir path with
              | ok e' =>
                simp only [hmake]
                exact hdir.trans (sameFiles_makeDir hmake)
              | error cause =>
                simp only [hmake]
                exact hdir

/-- Writing a file changes the file that the path leads to and no other. -/
theorem hasFile_writeFile? {d d' : Disk} {path text : String} (h : d.writeFile? path text = some d') :
    d'.cwd = d.cwd ∧ ∀ p content, d'.root.HasFile p content ↔
      if p = place d.cwd path then content = text.toUTF8 else d.root.HasFile p content := by
  rw [writeFile?] at h
  split at h
  · cases h
  · rename_i dir name hplace
    split at h
    · cases h
    · rename_i hname
      simp only [Bool.or_eq_true, Bool.not_eq_true', decide_eq_true_eq, not_or, Bool.not_eq_false] at hname
      obtain ⟨root, hroot, rfl⟩ := Option.map_eq_some_iff.1 h
      rw [place_of_placeOf hplace hname.1]
      exact ⟨rfl, FileTree.hasFile_write? (List.append_ne_nil_of_right_ne_nil _ (by simp)) hroot⟩

end Disk

end WorkflowAudit
