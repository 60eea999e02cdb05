import WorkflowAudit.Proofs.Path.Places
import WorkflowAudit.Proofs.Remote.Rounds

/-!
Where a crawl makes directories and writes files. The paths of entries are checked before they are
joined to the directory of their branch; the names of repositories and branches are not. Main
statements: what a crawl is to make or to write is at the directory of a branch, a path in it or the parent
of such a path, so that it lies below the output directory wherever the repository and the branch have
names that go down; a repository with another name is copied to a place outside.
-/

namespace WorkflowAudit

/-- The path of the directory that an action makes or of the file that it writes. -/
def CrawlAction.target? : CrawlAction → Option String
  | makeDirs path | write path => some path
  | ask _ | sleep _ => none

namespace RepoApi

/-- The service gives the repository a branch of this name at some time. -/
def NamesBranch (api : RepoApi) (org repo branch : String) : Prop :=
  ∃ earlier, api.defaultBranch earlier org repo = .ok branch ∨
    ∃ branches, api.branches earlier org repo = .ok branches ∧ branch ∈ branches

/-- The service gives the organization a repository of this name at some time. -/
def NamesRepository (api : RepoApi) (org repo : String) : Prop :=
  ∃ earlier repositories, api.repositories earlier org = .ok repositories ∧
    ∃ r ∈ repositories, r.name = repo

end RepoApi

namespace Path

/-- The path is the directory, a path that goes down from it, or the parent of such a path. -/
def IsReached (dir path : String) : Prop :=
  path = dir ∨ ∃ entry, GoesDown entry ∧ (path = join dir entry ∨ parent? (join dir entry) = some path)

theorem liesBelow_of_named {dir path : String} {names : List String}
    (habs : isAbsolute path = isAbsolute dir)
    (hnames : named (parts path) = named (parts dir) ++ names) (hup : ".." ∉ names) :
    LiesBelow dir path := by
  intro cwd
  have hgoOn : ∀ part ∈ names, isIdle part = false ∧ part ≠ ".." := by
    intro part hpart
    have hmem : part ∈ named (parts path) := hnames ▸ List.mem_append_right _ hpart
    exact ⟨(mem_named.1 hmem).2, fun h => hup (h ▸ hpart)⟩
  rw [place_eq_foldl_named, place_eq_foldl_named, habs, hnames, List.foldl_append,
    foldl_goOn_names hgoOn]
  exact List.prefix_append _ _

theorem GoesDown.not_mem_named {path : String} (h : GoesDown path) : ".." ∉ named (parts path) :=
  fun hmem => h.2 (mem_named.1 hmem).1

/-- A path that is reached from a directory keeps the names of a path that the directory goes down
    from by at least one name. -/
theorem liesBelow_of_isReached {top dir path : String} {names : List String}
    (habs : isAbsolute dir = isAbsolute top) (hnames : named (parts dir) = named (parts top) ++ names)
    (hne : names ≠ []) (hup : ".." ∉ names) (h : IsReached dir path) : LiesBelow top path := by
  rcases h with rfl | ⟨entry, hentry, rfl | hparent⟩
  · exact liesBelow_of_named habs hnames hup
  · have hjoin : named (parts (join dir entry)) =
        named (parts top) ++ (names ++ named (parts entry)) := by
      rw [named_parts_join hentry.1, hnames, List.append_assoc]
    refine liesBelow_of_named ?_ hjoin ?_
    · rw [isAbsolute_join hentry.1, habs]
    · exact fun hmem => (List.mem_append.1 hmem).elim hup hentry.not_mem_named
  · -- the parent drops one name, which is none of those of `top` as more follow them
    obtain ⟨habs', hnames'⟩ := parent?_names hparent
    have hlong : names ++ named (parts entry) ≠ [] := by simp [hne]
    rw [named_parts_join hentry.1, hnames, List.append_assoc,
      List.dropLast_append_of_ne_nil hlong] at hnames'
    refine liesBelow_of_named ?_ hnames' ?_
    · rw [habs', isAbsolute_join hentry.1, habs]
    · intro hmem
      rcases List.mem_append.1 (List.mem_of_mem_dropLast hmem) with hmem | hmem
      · exact hup hmem
      · exact hentry.not_mem_named hmem

end Path

namespace Crawl

/-- The names of the repository and of the branch go down, and lead away from where they are joined. -/
def NamesGoDown (repo branch : String) : Prop :=
  Path.GoesDown repo ∧ Path.GoesDown branch ∧
    Path.named (Path.parts repo) ++ Path.named (Path.parts branch) ≠ []

instance (repo branch : String) : Decidable (NamesGoDown repo branch) :=
  inferInstanceAs (Decidable (_ ∧ _ ∧ _))

/-- The directory of a branch. -/
def branchDir (options : CrawlOptions) (repo branch : String) : String :=
  Path.join (Path.join options.outputDir repo) branch

theorem goesDown_of_isSafe {path : String} (h : isSafe path = true) : Path.GoesDown path := by
  simp only [isSafe, Bool.and_eq_true, decide_eq_true_eq, List.all_eq_true] at h
  obtain ⟨hlead, hup⟩ := h
  rcases Path.lead_cases path with ⟨hdot, -⟩ | ⟨hslash, -⟩ | ⟨-, habs, hparts⟩
  · rw [hdot] at hlead
    exact absurd hlead (by decide)
  · rw [hslash] at hlead
    exact absurd hlead (by decide)
  · refine ⟨habs, fun hmem => ?_⟩
    rw [hparts] at hmem
    exact hup _ hmem rfl

theorem liesBelow_outputDir {options : CrawlOptions} {repo branch path : String}
    (hnames : NamesGoDown repo branch) (h : Path.IsReached (branchDir options repo branch) path) :
    Path.LiesBelow options.outputDir path := by
  obtain ⟨hrepo, hbranch, hne⟩ := hnames
  refine Path.liesBelow_of_isReached ?_ ?_ hne ?_ h
  · rw [branchDir, Path.isAbsolute_join hbranch.1, Path.isAbsolute_join hrepo.1]
  · rw [branchDir, Path.named_parts_join hbranch.1, Path.named_parts_join hrepo.1, List.append_assoc]
  · exact fun hmem => (List.mem_append.1 hmem).elim hrepo.not_mem_named hbranch.not_mem_named

/-! ### Crawls -/

/-- What the action makes or writes is at one of the paths. -/
def TouchesOnly (paths : String → Prop) (action : CrawlAction) : Prop :=
  ∀ path, action.target? = some path → paths path

section TouchesOnly

variable {paths : String → Prop}

theorem touchesOnly_ask (request : ApiRequest) : TouchesOnly paths (.ask request) :=
  fun _ h => by cases h

theorem touchesOnly_sleep (seconds : Nat) : TouchesOnly paths (.sleep seconds) :=
  fun _ h => by cases h

theorem touchesOnly_makeDirs {path : String} (h : paths path) : TouchesOnly paths (.makeDirs path) :=
  fun _ htarget => Option.some.inj htarget ▸ h

theorem touchesOnly_write {path : String} (h : paths path) : TouchesOnly paths (.write path) :=
  fun _ htarget => Option.some.inj htarget ▸ h

theorem TouchesOnly.mono {paths' : String → Prop} {action : CrawlAction}
    (h : TouchesOnly paths action) (hle : ∀ path, paths path → paths' path) :
    TouchesOnly paths' action :=
  fun path htarget => hle path (h path htarget)

end TouchesOnly

variable (api : RepoApi) (options : CrawlOptions)

section Requests

variable {paths : String → Prop}

theorem does_awaitLimit : Does (TouchesOnly paths) (awaitLimit api) fun _ => True :=
  .awaitLimit (touchesOnly_ask _) touchesOnly_sleep

theorem does_contentsAt (repo branch path : String) :
    Does (TouchesOnly paths) (contentsAt api options repo branch path) fun _ => True :=
  .bind (does_awaitLimit api) fun _ _ => .mono (.ask (touchesOnly_ask _) _) fun _ _ => trivial

theorem does_branchesOf (repo : String) :
    Does (TouchesOnly paths) (branchesOf api options repo)
      fun branches => ∀ branch ∈ branches, api.NamesBranch options.org repo branch := by
  rw [branchesOf]
  split
  · refine .bind (.ask (touchesOnly_ask _) _) fun branch hbranch => .pure ?_
    obtain ⟨earlier, hanswer⟩ := hbranch
    exact List.forall_mem_singleton.2 ⟨earlier, .inl hanswer⟩
  · refine .bind (.ask (touchesOnly_ask _) _) fun branches hbranches => .pure ?_
    obtain ⟨earlier, hanswer⟩ := hbranches
    intro branch hbranch
    have hmem : branch ∈ branches := by
      cases hmost : options.maxBranches with
      | none => simpa only [hmost] using hbranch
      | some most =>
        simp only [hmost] at hbranch
        exact List.mem_of_mem_take hbranch
    exact ⟨earlier, .inr ⟨branches, hanswer, hmem⟩⟩

end Requests

theorem does_copyFile {path : String} (h : Path.GoesDown path) (repo branch dir : String) :
    Does (TouchesOnly (Path.IsReached dir)) (copyFile api options repo branch dir path)
      fun _ => True := by
  refine .bind (.ask (touchesOnly_ask _) _) fun found _ => ?_
  cases found with
  | none => exact .pure trivial
  | some content =>
    have hwrite : Does (TouchesOnly (Path.IsReached dir)) (write (Path.join dir path) content)
        fun _ => True := .write (touchesOnly_write (.inr ⟨path, h, .inl rfl⟩)) content
    cases hparent : Path.parent? (Path.join dir path) with
    | none =>
      simp only [hparent]
      exact hwrite
    | some parent =>
      simp only [hparent]
      exact .bind (.makeDirs (touchesOnly_makeDirs (.inr ⟨path, h, .inr hparent⟩))) fun _ _ => hwrite

theorem does_copyEntriesFor (repo branch dir : String) (rounds : Nat) (pending : List Entry) :
    Does (TouchesOnly (Path.IsReached dir))
      (copyEntriesFor api options repo branch dir rounds pending) fun _ => True := by
  induction rounds generalizing pending with
  | zero =>
    cases pending with
    | nil => exact .pure trivial
    | cons entry pending => exact .unfinished
  | succ rounds ih =>
    cases pending with
    | nil => exact .pure trivial
    | cons entry pending =>
      rw [copyEntriesFor]
      split
      · exact ih pending
      · rename_i hsafe
        have hdown : Path.GoesDown entry.path := goesDown_of_isSafe (by simpa using hsafe)
        cases entry.kind with
        | file => exact .bind (does_copyFile api options hdown repo branch dir) fun _ _ => ih pending
        | dir => exact .bind (does_contentsAt api options repo branch entry.path) fun _ _ => ih _
        | symlink => exact ih pending
        | submodule => exact ih pending

theorem does_copyBranch (repo branch : String) :
    Does (TouchesOnly (Path.IsReached (branchDir options repo branch)))
      (copyBranch api options repo branch) fun _ => True := by
  refine .bind (does_contentsAt api options repo branch options.path) fun found _ => ?_
  cases found with
  | none => exact .pure trivial
  | some contents =>
    have hmarker : Path.GoesDown ".git" := by decide
    exact .bind (.makeDirs (touchesOnly_makeDirs (.inl rfl))) fun _ _ =>
      .bind (.write (touchesOnly_write (.inr ⟨".git", hmarker, .inl rfl⟩)) "") fun _ _ =>
        .rounds fun rounds => does_copyEntriesFor api options repo branch _ rounds _

/-- The path is reached from the directory of a branch that the service names, and lies below the
    output directory if the names go down. -/
def IsReachedInBranch (repo path : String) : Prop :=
  ∃ branch, api.NamesBranch options.org repo branch ∧
    Path.IsReached (branchDir options repo branch) path ∧
    (NamesGoDown repo branch → Path.LiesBelow options.outputDir path)

theorem does_copyBranches {repo : String} {branches : List String}
    (h : ∀ branch ∈ branches, api.NamesBranch options.org repo branch) :
    Does (TouchesOnly (IsReachedInBranch api options repo)) (copyBranches api options repo branches)
      fun _ => True := by
  induction branches with
  | nil => exact .pure trivial
  | cons branch branches ih =>
    obtain ⟨hbranch, hbranches⟩ := List.forall_mem_cons.1 h
    have hone : Does (TouchesOnly (IsReachedInBranch api options repo))
        (copyBranch api options repo branch) fun _ => True := by
      refine (does_copyBranch api options repo branch).weaken fun action haction => haction.mono ?_
      exact fun path hpath => ⟨branch, hbranch, hpath, fun hnames => liesBelow_outputDir hnames hpath⟩
    exact .bind hone fun _ _ => ih hbranches

theorem does_crawlRepo (repo : String) :
    Does (TouchesOnly (IsReachedInBranch api options repo)) (crawlRepo api options repo)
      fun _ => True :=
  .bind (does_awaitLimit api) fun _ _ =>
    .bind (does_branchesOf api options repo) fun _ hbranches => does_copyBranches api options hbranches

theorem does_crawlRepos (repos : List String) :
    Does (TouchesOnly fun path => ∃ repo ∈ repos, IsReachedInBranch api options repo path)
      (crawlRepos api options repos) fun _ => True := by
  induction repos with
  | nil => exact .pure trivial
  | cons repo repos ih =>
    refine .bind (.attempt ((does_crawlRepo api options repo).weaken ?_)) fun _ _ =>
      .bind (ih.weaken ?_) fun _ _ => .pure trivial
    · refine fun action haction => haction.mono fun path hpath => ?_
      exact ⟨repo, List.mem_cons_self .., hpath⟩
    · refine fun action haction => haction.mono ?_
      rintro path ⟨other, hother, hpath⟩
      exact ⟨other, List.mem_cons_of_mem _ hother, hpath⟩

theorem does_crawlOrg :
    Does (TouchesOnly fun path =>
        ∃ repo, api.NamesRepository options.org repo ∧ IsReachedInBranch api options repo path)
      (crawlOrg api options) fun _ => True := by
  refine .bind (.ask (touchesOnly_ask _) _) fun repositories hrepositories => ?_
  obtain ⟨earlier, hanswer⟩ := hrepositories
  refine (does_crawlRepos api options _).weaken fun action haction => haction.mono ?_
  rintro path ⟨repo, hrepo, hpath⟩
  obtain ⟨r, hr, rfl⟩ := List.mem_map.1 hrepo
  exact ⟨r.name, ⟨earlier, repositories, hanswer, r, List.mem_of_mem_filter hr, rfl⟩, hpath⟩

/-- Whatever the service answers and however far a crawl is followed, each path that it is to make as a directory
    or to write as a file is the directory of a branch that the service names, a path that goes down from it,
    or the parent of such a path, which for an entry that stands for the directory itself is the one above
    it. These paths lie below the output directory as far as the names of the repository and of the branch go
    down. Nothing is said of the directories above a path, which are made along with it. -/
theorem crawl_touches_branches_only (n : Nat) (s : CrawlState) :
    (∀ repo, AllDone (TouchesOnly (IsReachedInBranch api options repo)) s
      (outcome (crawlRepo api options repo) n s).2) ∧
    AllDone (TouchesOnly fun path =>
        ∃ repo, api.NamesRepository options.org repo ∧ IsReachedInBranch api options repo path) s
      (outcome (crawlOrg api options) n s).2 :=
  ⟨fun repo => (does_crawlRepo api options repo n s).1, (does_crawlOrg api options n s).1⟩

/-- A service with one repository, whose name goes back, and with one file in it. -/
def strayApi : RepoApi where
  rateLimit _ := .ok ⟨5000, 0⟩
  repositories _ org := .ok [⟨"../escape", org, none⟩]
  defaultBranch _ _ _ := .ok "main"
  branches _ _ _ := .ok ["main"]
  contents _ _ _ _ _ := .ok (some (.dir [⟨".github/workflows/a.yml", .file⟩]))
  rawFile _ _ _ _ _ := .ok (some "on: push")

/-- A repository whose name goes back is copied to a place beside the output directory. -/
theorem strayApi_writes_outside :
    let options : CrawlOptions := { org := "acme", path := ".github/workflows", outputDir := "out" }
    ∃ last, run? (crawlOrg strayApi options) { disk := ⟨.empty, []⟩ } = some (.ok 1, last) ∧
      CrawlAction.write "out/../escape/main/.github/workflows/a.yml" ∈ last.trace ∧
      last.disk.isFile "escape/main/.github/workflows/a.yml" = true ∧
      ¬ Path.LiesBelow options.outputDir "out/../escape/main/.github/workflows/a.yml" := by
  refine ⟨_, run?_eq_of_outcome (isSteady_crawlOrg _ _) (n := 1) (by decide +kernel), by decide +kernel,
    by decide +kernel, fun h => ?_⟩
  exact absurd (h []) (by decide +kernel)

end Crawl

end WorkflowAudit
