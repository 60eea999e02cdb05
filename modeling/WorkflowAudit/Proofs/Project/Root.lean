import WorkflowAudit.Proofs.Scan.Roots

/-!
The root of a file's project. The directories above a file are those that the names of its own directory
lead to one after the other, the first of them being `.` where nothing is written. Main statement: the root
is the nearest of these that holds `.git`; if none does, it is the one above the innermost `.github`, and
without that the file's own directory. It is never the empty path, files of one directory have one root,
and a root that holds `.git` is the root of its own files.
-/

namespace WorkflowAudit

namespace Path

/-- The directory of a file. -/
def dirOf (file : String) : String :=
  orHere ((parent? file).getD ".")

/-- The directory that the first `n` names of a path lead to. -/
def dirAt (path : String) (n : Nat) : String :=
  orHere (cut path n)

theorem orHere_ne_empty (path : String) : orHere path ≠ "" := by
  rw [orHere]
  split
  · decide
  · rename_i hne
    simpa using hne

theorem orHere_of_ne {path : String} (h : path ≠ "") : orHere path = path := by
  rw [orHere, if_neg (by simpa using h)]

/-! ### Directories that end in a name -/

/-- Nothing idle is at the end of the path. -/
def IsCut (path : String) : Prop :=
  cut path (depth path) = path

theorem isCut_here : IsCut "." := by
  rw [IsCut]
  decide

theorem isCut_dirAt {path : String} {n : Nat} (h : n ≤ depth path) : IsCut (dirAt path n) := by
  rcases eq_or_ne (cut path n) "" with hempty | hne
  · rw [dirAt, hempty]
    exact isCut_here
  · rw [dirAt, orHere_of_ne hne, IsCut, depth_cut h, cut_cut le_rfl h]

theorem isCut_dirOf (file : String) : IsCut (dirOf file) := by
  rw [dirOf]
  rcases eq_or_ne (named (parts file)) [] with hnil | hne
  · rw [parent?_eq_of_no_names hnil]
    split <;> exact isCut_here
  · rw [parent?_eq_of_names hne]
    exact isCut_dirAt (Nat.sub_le _ _)

theorem IsCut.dirAt_depth {path : String} (h : IsCut path) (hne : path ≠ "") :
    dirAt path (depth path) = path := by
  rw [IsCut] at h
  rw [dirAt, h, orHere_of_ne hne]

theorem dirOf_join_name {name : String} (h : IsName name) (dir : String) :
    dirOf (join dir name) = dirAt dir (depth dir) := by
  rw [dirOf, parent?_join_name h]
  rfl

/-! ### The first directory on the way up -/

/-- A look upwards stops at the last directory of the path with the property. -/
theorem last_of_find? {p : Nat → Bool} {n k : Nat} (h : (List.range (n + 1)).reverse.find? p = some k) :
    k ≤ n ∧ p k = true ∧ ∀ m, k < m → m ≤ n → p m = false := by
  induction n with
  | zero =>
    have hk := List.mem_of_find?_eq_some h
    have hp := List.find?_some h
    simp at hk
    exact ⟨by omega, hp, fun m hlt hle => by omega⟩
  | succ n ih =>
    rw [List.range_succ, List.reverse_concat, List.find?_cons] at h
    cases hp : p (n + 1) with
    | true =>
      rw [hp] at h
      cases h
      exact ⟨le_rfl, hp, fun m hlt hle => by omega⟩
    | false =>
      rw [hp] at h
      obtain ⟨hle, hpk, hlast⟩ := ih h
      refine ⟨by omega, hpk, fun m hlt hm => ?_⟩
      rcases Nat.lt_or_ge n m with hnm | hmn
      · rwa [show m = n + 1 by omega]
      · exact hlast m hlt hmn

theorem find?_ancestors {dir : String} (h : IsCut dir) (p : String → Bool)
    (hempty : (split dir).1 = "." → p "" = true → p (cut dir 0) = true) :
    (ancestors dir).find? p =
      ((List.range (depth dir + 1)).reverse.find? fun n => p (cut dir n)).map (cut dir) := by
  have hcomp : p ∘ cut dir = fun n => p (cut dir n) := rfl
  rw [ancestors_eq h, List.find?_append, List.find?_map, hcomp]
  cases hfind : (List.range (depth dir + 1)).reverse.find? fun n => p (cut dir n) with
  | some n => rfl
  | none =>
    have hnone := List.find?_eq_none.1 hfind 0 (by simp)
    have hlast : (if (split dir).1 = "." then [""] else []).find? p = none := by
      split
      · rename_i hdot
        have hp : ¬ p "" = true := fun hp => hnone (hempty hdot hp)
        simp [hp]
      · rfl
    rw [hlast]
    rfl

theorem fileName?_eq_some_iff {path name : String} (h : name ≠ "..") :
    fileName? path = some name ↔ (named (parts path)).getLast? = some name := by
  rw [fileName?, ← getLast?_named, named_split]
  cases (named (parts path)).getLast? with
  | none => simp
  | some last =>
    by_cases hlast : last = ".."
    · simp [hlast, Ne.symm h]
    · simp [hlast]

/-- The directory of the first names is called like the last of them. -/
theorem fileName?_cut_succ {path name : String} {n : Nat} (h : n + 1 ≤ depth path) (hname : name ≠ "..") :
    fileName? (cut path (n + 1)) = some name ↔ (named (parts path))[n]? = some name := by
  have hlt : n < (named (parts path)).length := h
  rw [fileName?_eq_some_iff hname, named_parts_cut h, List.getLast?_take]
  simp [List.getElem?_eq_getElem hlt]

theorem fileName?_cut_zero (path : String) : fileName? (cut path 0) = none := by
  have hnamed : named (parts (cut path 0)) = [] := by rw [named_parts_cut (Nat.zero_le _), List.take_zero]
  rw [fileName?, ← getLast?_named, named_split, hnamed]
  rfl

/-! ### Paths that are the same -/

theorem eq_empty_of_lead {path : String} (hlead : (split path).1 = "") (hnamed : named (parts path) = []) :
    path = "" := by
  obtain ⟨first, rest, hparts⟩ := List.exists_cons_of_ne_nil (Text.split_ne_nil '/' path)
  have hfirst : isIdle first = true :=
    named_eq_nil.1 hnamed first (by rw [parts, hparts]; exact List.mem_cons_self ..)
  rw [lead_eq, parts, hparts, List.head?_cons] at hlead
  have hdot : first ≠ "." := by
    rintro rfl
    simp at hlead
  obtain rfl : first = "" := by
    rw [isIdle, Bool.or_eq_true, decide_eq_true_eq, decide_eq_true_eq] at hfirst
    exact hfirst.resolve_right hdot
  rcases eq_or_ne rest [] with rfl | hrest
  · rw [← Text.intercalate_split '/' path, hparts]
    rfl
  · rw [isAbsolute_of_parts hparts hrest] at hlead
    simp at hlead

theorem same_orHere {a b : String} (h : same a b = true) : same (orHere a) (orHere b) = true := by
  have hempty : a = "" ↔ b = "" := by
    have hnil : (split "").1 = "" ∧ named (parts "") = [] := by decide
    obtain ⟨hlead, hnamed⟩ := same_iff.1 h
    constructor
    · rintro rfl
      exact eq_empty_of_lead (hlead ▸ hnil.1) (hnamed ▸ hnil.2)
    · rintro rfl
      exact eq_empty_of_lead (hlead ▸ hnil.1) (hnamed ▸ hnil.2)
  rcases eq_or_ne a "" with ha | ha
  · rw [ha, hempty.1 ha]
    exact same_self _
  · rwa [orHere_of_ne ha, orHere_of_ne (mt hempty.2 ha)]

theorem same_dirAt {a b : String} (h : same a b = true) {n : Nat} (hn : n ≤ depth a) :
    same (dirAt a n) (dirAt b n) = true :=
  same_orHere (same_cut h hn)

theorem settled_join_name {name : String} (h : IsName name) (dir : String) : Settled (join dir name) := by
  have hlast : (parts (join dir name)).getLast? = some name := by
    rcases eq_or_ne dir "" with rfl | hdir
    · simp [join, h.isAbsolute_eq_false, h.parts_eq]
    · obtain ⟨front, -, hjoin, -⟩ := parts_join hdir h.isAbsolute_eq_false
      simp [hjoin, h.parts_eq]
  refine ⟨fun hempty => ?_, .inr ⟨name, hlast, h.1⟩⟩
  have hparts : (parts "").getLast? = some "" := by decide
  rw [hempty, hparts] at hlast
  exact h.ne_empty (Option.some.inj hlast).symm

end Path

namespace Disk

open WorkflowAudit.Path

/-- The directory holds `.git`. -/
def HoldsGit (d : Disk) (dir : String) : Prop :=
  d.has (join dir ".git") = true

instance (d : Disk) (dir : String) : Decidable (d.HoldsGit dir) :=
  inferInstanceAs (Decidable (_ = _))

/-- What makes a path the root of the project of the files in a directory. -/
inductive IsRootOf (d : Disk) (dir : String) : (root : String) → Prop
  /-- It is the nearest directory that holds `.git`. -/
  | repository {n : Nat} (hn : n ≤ depth dir) (hholds : d.HoldsGit (dirAt dir n))
      (hnearest : ∀ m, n < m → m ≤ depth dir → ¬ d.HoldsGit (dirAt dir m)) :
      IsRootOf d dir (dirAt dir n)
  /-- No directory does, and it is the one above the innermost `.github`. -/
  | settings {above below : List String} (hnone : ∀ m ≤ depth dir, ¬ d.HoldsGit (dirAt dir m))
      (hnames : named (parts dir) = above ++ ".github" :: below) (hinnermost : ".github" ∉ below) :
      IsRootOf d dir (dirAt dir above.length)
  /-- No directory does, none is called `.github`, and it is the directory itself. -/
  | own (hnone : ∀ m ≤ depth dir, ¬ d.HoldsGit (dirAt dir m)) (hnames : ".github" ∉ named (parts dir)) :
      IsRootOf d dir dir

theorem holdsGit_iff_of_same (d : Disk) {a b : String} (ha : a ≠ "") (hb : b ≠ "")
    (h : same a b = true) : d.HoldsGit a ↔ d.HoldsGit b := by
  have hname : IsName ".git" := by decide
  rw [HoldsGit, HoldsGit, has, has,
    d.lookup_eq_of_same (settled_join_name hname a) (settled_join_name hname b) (same_join h ha hb ".git")]

theorem projectRoot_eq_of_dirOf (d : Disk) {a b : String} (h : dirOf a = dirOf b) :
    d.projectRoot a = d.projectRoot b := by
  unfold dirOf at h
  unfold projectRoot
  rw [h]

theorem isRootOf_projectRoot (d : Disk) (file : String) :
    d.IsRootOf (dirOf file) (d.projectRoot file) := by
  have hcut := isCut_dirOf file
  unfold projectRoot
  rw [← dirOf]
  generalize dirOf file = dir at hcut ⊢
  have hgit : ((ancestors dir).map orHere).find? (fun a => d.has (join a ".git")) =
      ((List.range (depth dir + 1)).reverse.find? fun n => d.has (join (dirAt dir n) ".git")).map
        (dirAt dir) := by
    rw [List.find?_map, find?_ancestors hcut _ fun hdot hhere => ?_, Option.map_map]
    · rfl
    · -- The empty path after a dot is the same directory once more.
      have hzero : cut dir 0 = "." := by simp [cut, hdot, build]
      have hdirs : orHere "" = orHere "." := by decide
      rw [Function.comp_apply] at hhere ⊢
      rwa [hzero, ← hdirs]
  have hsettings := find?_ancestors hcut (fun a => decide (fileName? a = some ".github"))
    fun _ hhere => absurd hhere (by decide)
  simp only [hgit, hsettings]
  cases hfind : (List.range (depth dir + 1)).reverse.find? fun n => d.has (join (dirAt dir n) ".git") with
  | some n =>
    obtain ⟨hle, hholds, hnearest⟩ := last_of_find? hfind
    refine .repository hle hholds fun m hlt hm => ?_
    rw [HoldsGit, hnearest m hlt hm]
    decide
  | none =>
    have hnone : ∀ m ≤ depth dir, ¬ d.HoldsGit (dirAt dir m) := fun m hm =>
      List.find?_eq_none.1 hfind m (by simpa using Nat.lt_succ_of_le hm)
    cases hfind' : (List.range (depth dir + 1)).reverse.find?
        fun n => decide (fileName? (cut dir n) = some ".github") with
    | some n =>
      obtain ⟨hle, hname, hinnermost⟩ := last_of_find? hfind'
      rw [decide_eq_true_eq] at hname
      cases n with
      | zero =>
        rw [fileName?_cut_zero] at hname
        cases hname
      | succ n =>
        have hlt : n < (named (parts dir)).length := hle
        rw [fileName?_cut_succ hle (by decide), List.getElem?_eq_getElem hlt, Option.some.injEq] at hname
        have hnames : named (parts dir) =
            (named (parts dir)).take n ++ ".github" :: (named (parts dir)).drop (n + 1) := by
          rw [← hname, ← List.drop_eq_getElem_cons hlt, List.take_append_drop]
        have hroot := IsRootOf.settings hnone hnames fun hmem => ?_
        · rw [List.length_take_of_le hlt.le] at hroot
          simpa [parent?_cut hle, dirAt] using hroot
        · obtain ⟨i, hi⟩ := List.mem_iff_getElem?.1 hmem
          rw [List.getElem?_drop] at hi
          have hle' : n + 1 + i + 1 ≤ depth dir := (List.getElem?_eq_some_iff.1 hi).1
          have hno := hinnermost (n + 1 + i + 1) (by omega) hle'
          rw [decide_eq_false_iff_not, fileName?_cut_succ hle' (by decide)] at hno
          exact hno hi
    | none =>
      refine .own hnone fun hmem => ?_
      obtain ⟨i, hi⟩ := List.mem_iff_getElem?.1 hmem
      have hlt : i + 1 ≤ depth dir := (List.getElem?_eq_some_iff.1 hi).1
      have hno := List.find?_eq_none.1 hfind' (i + 1) (by simpa using hlt)
      exact hno (decide_eq_true ((fileName?_cut_succ hlt (by decide)).2 hi))

theorem IsRootOf.ne_empty {d : Disk} {dir root : String} (h : d.IsRootOf dir root) (hdir : dir ≠ "") :
    root ≠ "" := by
  cases h with
  | repository => exact orHere_ne_empty _
  | settings => exact orHere_ne_empty _
  | own => exact hdir

theorem IsRootOf.isCut {d : Disk} {dir root : String} (h : d.IsRootOf dir root) (hdir : IsCut dir) :
    IsCut root := by
  cases h with
  | repository hn => exact isCut_dirAt hn
  | settings _ hnames => exact isCut_dirAt (by simp [depth, hnames])
  | own => exact hdir

/-- What is above the last `.github` is told by the names. -/
theorem eq_of_innermost {above below above' below' : List String}
    (h : above ++ ".github" :: below = above' ++ ".github" :: below') (hbelow : ".github" ∉ below)
    (hbelow' : ".github" ∉ below') : above = above' := by
  rcases List.append_eq_append_iff.1 h with ⟨more, rfl, hmore⟩ | ⟨more, rfl, hmore⟩
  · cases more with
    | nil => exact (List.append_nil _).symm
    | cons name more =>
      obtain ⟨-, hrest⟩ := List.cons.inj hmore
      exact absurd (hrest ▸ List.mem_append_right more (List.mem_cons_self ..)) hbelow
  · cases more with
    | nil => exact List.append_nil _
    | cons name more =>
      obtain ⟨-, hrest⟩ := List.cons.inj hmore
      exact absurd (hrest ▸ List.mem_append_right more (List.mem_cons_self ..)) hbelow'

/-- Directories that are the same path have roots that are the same path. -/
theorem IsRootOf.same {d : Disk} {dir dir' root root' : String} (h : d.IsRootOf dir root)
    (h' : d.IsRootOf dir' root') (hsame : Path.same dir dir' = true) : Path.same root root' = true := by
  have hdepth := depth_eq_of_same hsame
  have hnamed := named_eq_of_same hsame
  have hholds (n : Nat) (hn : n ≤ depth dir) : d.HoldsGit (dirAt dir n) ↔ d.HoldsGit (dirAt dir' n) :=
    d.holdsGit_iff_of_same (orHere_ne_empty _) (orHere_ne_empty _) (same_dirAt hsame hn)
  have hnone (hnone : ∀ m ≤ depth dir, ¬ d.HoldsGit (dirAt dir m)) :
      ∀ m ≤ depth dir', ¬ d.HoldsGit (dirAt dir' m) := fun m hm =>
    mt (hholds m (hdepth ▸ hm)).2 (hnone m (hdepth ▸ hm))
  cases h with
  | @repository n hn hgit hnearest =>
    cases h' with
    | @repository n' hn' hgit' hnearest' =>
      rw [← hdepth] at hn'
      rcases Nat.lt_trichotomy n n' with hlt | rfl | hlt
      · exact absurd ((hholds n' hn').2 hgit') (hnearest n' hlt hn')
      · exact same_dirAt hsame hn
      · exact absurd ((hholds n hn).1 hgit) (hnearest' n hlt (hdepth ▸ hn))
    | settings hnone' => exact absurd ((hholds n hn).1 hgit) (hnone' n (hdepth ▸ hn))
    | own hnone' => exact absurd ((hholds n hn).1 hgit) (hnone' n (hdepth ▸ hn))
  | @settings above below hnogit hnames hinnermost =>
    cases h' with
    | repository hn' hgit' => exact absurd hgit' (hnone hnogit _ hn')
    | settings _ hnames' hinnermost' =>
      rw [← hnamed, hnames] at hnames'
      rw [← eq_of_innermost hnames' hinnermost hinnermost']
      exact same_dirAt hsame (by simp [depth, hnames])
    | own _ hnames' =>
      rw [← hnamed, hnames] at hnames'
      simp at hnames'
  | own hnogit hnames =>
    cases h' with
    | repository hn' hgit' => exact absurd hgit' (hnone hnogit _ hn')
    | settings _ hnames' =>
      rw [hnamed, hnames'] at hnames
      simp at hnames
    | own => exact hsame

/-- A directory that holds `.git` is the root of its own files. -/
theorem IsRootOf.eq_of_holdsGit {d : Disk} {dir root : String} (h : d.IsRootOf dir root)
    (hcut : IsCut dir) (hne : dir ≠ "") (hgit : d.HoldsGit dir) : root = dir := by
  rw [← hcut.dirAt_depth hne] at hgit
  cases h with
  | @repository n hn _ hnearest =>
    rcases Nat.lt_or_eq_of_le hn with hlt | rfl
    · exact absurd hgit (hnearest _ hlt le_rfl)
    · exact hcut.dirAt_depth hne
  | settings hnone => exact absurd hgit (hnone _ le_rfl)
  | own => rfl

/-- The root of a file's project is never the empty path. It is the nearest directory above the file that
    holds `.git`, or the one above the innermost `.github` if none does, or the file's own directory.
    Files of one directory have the same root, and a root that holds `.git` is the root of every
    file directly in it. -/
theorem projectRoot_is_nearest (d : Disk) (file : String) :
    d.projectRoot file ≠ "" ∧
    d.IsRootOf (dirOf file) (d.projectRoot file) ∧
    (∀ dir a b, IsName a → IsName b → d.projectRoot (join dir a) = d.projectRoot (join dir b)) ∧
    (∀ other, Path.same (dirOf file) (dirOf other) = true →
      Path.same (d.projectRoot file) (d.projectRoot other) = true) ∧
    (d.HoldsGit (d.projectRoot file) → ∀ name, IsName name →
      d.projectRoot (join (d.projectRoot file) name) = d.projectRoot file) := by
  have hroot := d.isRootOf_projectRoot file
  have hne : d.projectRoot file ≠ "" := hroot.ne_empty (orHere_ne_empty _)
  have hcut : IsCut (d.projectRoot file) := hroot.isCut (isCut_dirOf file)
  refine ⟨hne, hroot, fun dir a b ha hb => ?_, fun other hsame => ?_, fun hgit name hname => ?_⟩
  · exact d.projectRoot_eq_of_dirOf (by rw [dirOf_join_name ha, dirOf_join_name hb])
  · exact hroot.same (d.isRootOf_projectRoot other) hsame
  · have hagain := d.isRootOf_projectRoot (join (d.projectRoot file) name)
    rw [dirOf_join_name hname, hcut.dirAt_depth hne] at hagain
    exact hagain.eq_of_holdsGit hcut hne hgit

/-- A checkout at the current directory, with settings of its own further down. -/
def checkout : Disk :=
  ⟨.dir [("w", .dir [(".git", .empty), ("tool", .dir [(".github", .empty)])])], ["w"]⟩

theorem checkout_is_root_of_settings :
    checkout.projectRoot "tool/.github/ci.yml" = "." ∧ checkout.HoldsGit "." ∧
      checkout.projectRoot (join "." "ci.yml") = "." ∧
      Path.same (dirOf "tool/.github/ci.yml") (dirOf "tool//.github/./x.yml") = true ∧
      Path.same "." (checkout.projectRoot "tool//.github/./x.yml") = true := by
  have hroot : checkout.projectRoot "tool/.github/ci.yml" = "." := by decide +kernel
  have hgit : checkout.HoldsGit "." := by decide +kernel
  have hdirs : Path.same (dirOf "tool/.github/ci.yml") (dirOf "tool//.github/./x.yml") = true := by
    decide +kernel
  obtain ⟨-, -, -, hsame, hfixed⟩ := checkout.projectRoot_is_nearest "tool/.github/ci.yml"
  rw [hroot] at hsame hfixed
  exact ⟨hroot, hgit, hfixed hgit "ci.yml" (by decide), hdirs, hsame _ hdirs⟩

end Disk

end WorkflowAudit
