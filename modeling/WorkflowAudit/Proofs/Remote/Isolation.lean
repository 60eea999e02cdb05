import WorkflowAudit.Proofs.Remote.Rounds

/-!
The repositories of an organization do not affect each other. If the answers of the service depend on the
request only, and what is written can be written, then the crawl of a repository does the same and ends the
same wherever it starts, the length of its sleep aside. Main statements: the crawl of an organization fails
just if its repositories cannot be listed; otherwise, as far as the crawl of each of them comes to an end, it
does for each what a crawl of that one alone does, also after others have failed, and counts those that such
a crawl succeeds on. A repository with a directory that lists itself is crawled for ever, and one that is
copied into the marker of another cannot be written.
-/

namespace WorkflowAudit

/-- The answers of the service depend on the request only. -/
structure RepoApi.IsMemoryless (api : RepoApi) : Prop where
  rateLimit : ∀ earlier, api.rateLimit earlier = api.rateLimit []
  repositories : ∀ earlier org, api.repositories earlier org = api.repositories [] org
  defaultBranch : ∀ earlier org repo, api.defaultBranch earlier org repo = api.defaultBranch [] org repo
  branches : ∀ earlier org repo, api.branches earlier org repo = api.branches [] org repo
  contents : ∀ earlier org repo branch path,
    api.contents earlier org repo branch path = api.contents [] org repo branch path
  rawFile : ∀ earlier org repo branch path,
    api.rawFile earlier org repo branch path = api.rawFile [] org repo branch path

/-- The action lets time pass and does nothing else. -/
def CrawlAction.isSleep : CrawlAction → Bool
  | sleep _ => true
  | ask _ | makeDirs _ | write _ => false

namespace Crawl

variable {α β : Type}

/-! ### Plans -/

/-- Something to do other than to sleep, with all that it takes. -/
inductive Deed where
  | ask (request : ApiRequest)
  | makeDirs (path : String)
  | write (path content : String)
  deriving DecidableEq, Repr

/-- How the deed shows in a trace. -/
def Deed.action : Deed → CrawlAction
  | ask request => .ask request
  | makeDirs path => .makeDirs path
  | write path _ => .write path

/-- The disk after the deed. -/
def Deed.perform (d : Disk) : Deed → Disk
  | ask _ => d
  | makeDirs path => (d.makeDirs path).1
  | write path content => (d.writeFile? path content).getD d

/-- What a part of a crawl does, and what it gives. -/
structure Plan (ε α : Type) where
  deeds : List Deed
  result : Except ε α

/-- From one state to another just the deeds are done, with some sleep between them. -/
def Carries (deeds : List Deed) (s t : CrawlState) : Prop :=
  t.disk = deeds.foldl Deed.perform s.disk ∧
    ∃ done, t.trace = s.trace ++ done ∧ done.filter (!·.isSleep) = deeds.map Deed.action

/-- The part comes to an end from the state. -/
def Ends (m : Crawl α) (s : CrawlState) : Prop :=
  ∃ ended, run? m s = some ended

/-- The part that starts in the state ends, and goes as planned. -/
def Follows (m : Crawl α) (s : CrawlState) (plan : Plan CrawlError α) : Prop :=
  ∃ t, run? m s = some (plan.result, t) ∧ Carries plan.deeds s t

/-- The part that starts in the state can write all that it has to. -/
def Writable (m : Crawl α) (s : CrawlState) : Prop :=
  ∀ path t, run? m s ≠ some (.error (.unwritable path), t)

/-- As far as it is followed, the part can write all that it has to. -/
def WritableFor (n : Nat) (m : Crawl α) (s : CrawlState) : Prop :=
  ∀ path, (outcome m n s).1 ≠ .error (.failed (.unwritable path))

/-- As far as it is followed, the part goes as planned. -/
def FollowsFor (n : Nat) (m : Crawl α) (s : CrawlState) (plan : Plan Halt α) : Prop :=
  (outcome m n s).1 = plan.result ∧ Carries plan.deeds s (outcome m n s).2

/-- However far the part is followed, there is one plan for it wherever it starts. -/
def Planned (m : Crawl α) : Prop :=
  ∀ n, ∃ plan, ∀ s, WritableFor n m s → FollowsFor n m s plan

theorem writable_of_run? {m : Crawl α} {s t : CrawlState} {result : Except CrawlError α}
    (h : run? m s = some (result, t)) (hresult : ∀ path, result ≠ .error (.unwritable path)) :
    Writable m s := by
  rintro path u hu
  rw [h, Option.some.injEq, Prod.mk.injEq] at hu
  exact hresult path hu.1

theorem Carries.refl (s : CrawlState) : Carries [] s s :=
  ⟨rfl, [], (List.append_nil _).symm, rfl⟩

theorem Carries.trans {first second : List Deed} {s t u : CrawlState} (h₁ : Carries first s t)
    (h₂ : Carries second t u) : Carries (first ++ second) s u := by
  obtain ⟨hdisk₁, done₁, htrace₁, hawake₁⟩ := h₁
  obtain ⟨hdisk₂, done₂, htrace₂, hawake₂⟩ := h₂
  refine ⟨by rw [hdisk₂, hdisk₁, List.foldl_append], done₁ ++ done₂, ?_, ?_⟩
  · rw [htrace₂, htrace₁, List.append_assoc]
  · rw [List.filter_append, List.map_append, hawake₁, hawake₂]

theorem carries_one {deed : Deed} {s t : CrawlState} (hdisk : t.disk = deed.perform s.disk)
    (htrace : t.trace = s.trace ++ [deed.action]) : Carries [deed] s t := by
  refine ⟨hdisk, [deed.action], htrace, ?_⟩
  cases deed <;> rfl

namespace Planned

theorem pure (a : α) : Planned (Pure.pure a) :=
  fun _ => ⟨⟨[], .ok a⟩, fun s _ => ⟨rfl, .refl s⟩⟩

theorem unfinished : Planned (throw .unfinished : Crawl α) :=
  fun _ => ⟨⟨[], .error .unfinished⟩, fun s _ => ⟨rfl, .refl s⟩⟩

/-- What the first part gives is planned, and so it is planned which second part comes next. -/
theorem bind {m : Crawl α} {f : α → Crawl β} (hm : Planned m) (hf : ∀ a, Planned (f a)) :
    Planned (m >>= f) := by
  intro n
  obtain ⟨⟨deeds, result⟩, hplan⟩ := hm n
  have hfirst {s : CrawlState} (hs : WritableFor n (m >>= f) s) : FollowsFor n m s ⟨deeds, result⟩ := by
    refine hplan s fun path hpath => hs path ?_
    rw [outcome_bind_error (Prod.ext hpath rfl)]
  cases result with
  | error halt =>
    refine ⟨⟨deeds, .error halt⟩, fun s hs => ?_⟩
    obtain ⟨hresult, hcarries⟩ := hfirst hs
    rw [FollowsFor, outcome_bind_error (Prod.ext hresult rfl)]
    exact ⟨rfl, hcarries⟩
  | ok a =>
    obtain ⟨second, hsecond⟩ := hf a n
    refine ⟨⟨deeds ++ second.deeds, second.result⟩, fun s hs => ?_⟩
    obtain ⟨hresult, hcarries⟩ := hfirst hs
    have hout : outcome (m >>= f) n s = outcome (f a) n (outcome m n s).2 :=
      outcome_bind_ok (Prod.ext hresult rfl) f
    have hrest : WritableFor n (f a) (outcome m n s).2 := by
      intro path
      rw [← hout]
      exact hs path
    obtain ⟨hresult₂, hcarries₂⟩ := hsecond _ hrest
    rw [FollowsFor, hout]
    exact ⟨hresult₂, hcarries.trans hcarries₂⟩

theorem rounds {walk : Nat → Crawl α} (h : ∀ rounds, Planned (walk rounds)) :
    Planned (read >>= walk) := by
  intro n
  obtain ⟨plan, hplan⟩ := h n n
  refine ⟨plan, fun s hs => ?_⟩
  have hout : outcome (read >>= walk) n s = outcome (walk n) n s := outcome_bind_ok (outcome_read s) walk
  rw [WritableFor, hout] at hs
  rw [FollowsFor, hout]
  exact hplan s hs

theorem ask (request : ApiRequest) {answer : List CrawlAction → Except String α}
    (h : ∀ earlier, answer earlier = answer []) : Planned (Crawl.ask request answer) := by
  intro n
  cases hanswer : answer [] with
  | ok a =>
    refine ⟨⟨[.ask request], .ok a⟩, fun s _ => ?_⟩
    rw [FollowsFor, outcome_ask_ok ((h s.trace).trans hanswer)]
    exact ⟨rfl, carries_one rfl rfl⟩
  | error cause =>
    refine ⟨⟨[.ask request], .error (.failed (.api cause))⟩, fun s _ => ?_⟩
    rw [FollowsFor, outcome_ask_error ((h s.trace).trans hanswer)]
    exact ⟨rfl, carries_one rfl rfl⟩

theorem makeDirs (path : String) : Planned (Crawl.makeDirs path) := by
  refine fun n => ⟨⟨[.makeDirs path], .ok ()⟩, fun s hs => ?_⟩
  have hmade : (s.disk.makeDirs path).2 = true := by
    by_contra hmissing
    exact hs path (by rw [outcome_makeDirs, if_neg hmissing])
  rw [FollowsFor, outcome_makeDirs, if_pos hmade]
  exact ⟨rfl, carries_one rfl rfl⟩

theorem write (path content : String) : Planned (Crawl.write path content) := by
  refine fun n => ⟨⟨[.write path content], .ok ()⟩, fun s hs => ?_⟩
  cases hdisk : s.disk.writeFile? path content with
  | none => exact absurd (congrArg Prod.fst (outcome_write_none hdisk)) (hs path)
  | some disk =>
    rw [FollowsFor, outcome_write_some hdisk]
    exact ⟨rfl, carries_one (by rw [Deed.perform, hdisk]; rfl) rfl⟩

/-- How long the sleep is depends on the clock, and is not part of the plan. -/
theorem awaitLimit {api : RepoApi} (h : api.IsMemoryless) : Planned (Crawl.awaitLimit api) := by
  intro n
  cases hlimit : api.rateLimit [] with
  | error cause =>
    refine ⟨⟨[.ask .rateLimit], .error (.failed (.api cause))⟩, fun s _ => ?_⟩
    rw [FollowsFor, outcome_awaitLimit_error ((h.rateLimit s.trace).trans hlimit)]
    exact ⟨rfl, carries_one rfl rfl⟩
  | ok limit =>
    refine ⟨⟨[.ask .rateLimit], .ok ()⟩, fun s _ => ?_⟩
    obtain ⟨t, pause, hout, hdisk, -, htrace, hpause, -⟩ :=
      outcome_awaitLimit_ok (n := n) ((h.rateLimit s.trace).trans hlimit)
    rw [FollowsFor, hout]
    refine ⟨rfl, hdisk, _, htrace, ?_⟩
    have hasleep : pause.filter (!·.isSleep) = [] := by
      refine List.filter_eq_nil_iff.2 fun action haction => ?_
      obtain ⟨seconds, rfl⟩ := hpause action haction
      simp [CrawlAction.isSleep]
    exact congrArg (List.cons _) hasleep

/-- If the part ends somewhere where it can write, then with the rounds that this takes it ends as planned
    wherever it can write. -/
theorem exists_follows {m : Crawl α} (h : Planned m) (hm : IsSteady m) :
    ∃ plan, (∃ t, Writable m t ∧ Ends m t) → ∀ s, Writable m s → Follows m s plan := by
  by_cases hsome : ∃ t, Writable m t ∧ Ends m t
  · obtain ⟨t, hwritable, ended, hended⟩ := hsome
    obtain ⟨n, hout⟩ := (run?_eq_some_iff hm).1 hended
    obtain ⟨plan, hplan⟩ := h n
    have hfor {s : CrawlState} (hs : Writable m s) : WritableFor n m s := fun path hpath =>
      hs path _ (run?_eq_of_outcome hm hpath)
    have hresult : plan.result = ended.1.mapError .failed := by
      rw [← (hplan t (hfor hwritable)).1, hout, ending]
    refine ⟨⟨plan.deeds, ended.1⟩, fun _ s hs => ?_⟩
    obtain ⟨hfound, hcarries⟩ := hplan s (hfor hs)
    exact ⟨_, run?_eq_of_outcome hm (hfound.trans hresult), hcarries⟩
  · exact ⟨⟨[], .error (.api "")⟩, fun hends => absurd hends hsome⟩

end Planned

theorem partCases_planned {api : RepoApi} (h : api.IsMemoryless) :
    PartCases api fun _ m _ => Planned m where
  pure := .pure
  unfinished _ := .unfinished
  rounds hwalk := .rounds fun n => hwalk n n le_rfl
  bind := .bind
  makeDirs := .makeDirs
  write := .write
  rawFile org repo branch path := .ask _ fun earlier => h.rawFile earlier org repo branch path
  contents org repo branch path :=
    .bind (.awaitLimit h) fun _ => .ask _ fun earlier => h.contents earlier org repo branch path
  branches org repo := .bind (.awaitLimit h) fun _ => .ask _ fun earlier => h.branches earlier org repo
  defaultBranch org repo :=
    .bind (.awaitLimit h) fun _ => .ask _ fun earlier => h.defaultBranch earlier org repo

/-! ### One repository after the other -/

variable (api : RepoApi) (options : CrawlOptions)

/-- Each crawl of a repository can write all that it has to, from where those before it have stopped. -/
def AllWritable : List String → CrawlState → Prop
  | [], _ => True
  | repo :: rest, s =>
    Writable (crawlRepo api options repo) s ∧
      ∀ ended, run? (crawlRepo api options repo) s = some ended → AllWritable rest ended.2

variable {api options}

/-- A failure leaves the rest of the crawl as planned. -/
theorem follows_crawlRepos {plan : String → Plan CrawlError Unit} {repos : List String} {s : CrawlState}
    (hplan : ∀ repo ∈ repos, ∀ t, Writable (crawlRepo api options repo) t →
      Follows (crawlRepo api options repo) t (plan repo))
    (h : AllWritable api options repos s) :
    Follows (crawlRepos api options repos) s {
      deeds := repos.flatMap fun repo => (plan repo).deeds
      result := .ok (repos.countP fun repo => (plan repo).result.isOk) } := by
  induction repos generalizing s with
  | nil => exact ⟨s, run?_pure 0 s, .refl s⟩
  | cons repo rest ih =>
    obtain ⟨hwritable, hrest⟩ := h
    obtain ⟨hrepo, hothers⟩ := List.forall_mem_cons.1 hplan
    obtain ⟨t, hrun, hcarries⟩ := hrepo s hwritable
    obtain ⟨u, hrun', hcarries'⟩ := ih hothers (hrest _ hrun)
    have hsteady := isSteady_crawlRepo api options repo
    have hadd (copied : Bool) : ∀ others : Nat,
        IsSteady (pure (if copied then others + 1 else others) : Crawl Nat) :=
      fun others => .of_const fun _ _ _ => rfl
    refine ⟨u, ?_, hcarries.trans hcarries'⟩
    rw [crawlRepos, run?_bind_ok hsteady.attempt
      (fun copied => .bind (isSteady_crawlRepos api options rest) (hadd copied)) (run?_attempt hsteady hrun),
      run?_bind_ok (isSteady_crawlRepos api options rest) (hadd _) hrun', run?_pure, List.countP_cons]
    split <;> simp_all

/-- The part gives a result if it ends. -/
def NeverFails (m : Crawl α) : Prop :=
  ∀ n s e, (outcome m n s).1 ≠ .error (.failed e)

theorem NeverFails.pure (a : α) : NeverFails (Pure.pure a) :=
  fun _ _ _ h => by cases h

theorem NeverFails.bind {m : Crawl α} {f : α → Crawl β} (hm : NeverFails m)
    (hf : ∀ a, NeverFails (f a)) : NeverFails (m >>= f) := by
  intro n s e
  cases hout : outcome m n s with
  | mk result t =>
    cases result with
    | ok a =>
      rw [outcome_bind_ok hout]
      exact hf a n t e
    | error halt =>
      rw [outcome_bind_error hout]
      have hfirst := hm n s e
      rw [hout] at hfirst
      rintro ⟨rfl⟩
      exact hfirst rfl

theorem neverFails_attempt (m : Crawl Unit) : NeverFails (attempt m) := by
  intro n s e
  rw [outcome_attempt]
  cases (outcome m n s).1 with
  | ok _ => simp [attempted]
  | error halt => cases halt <;> simp [attempted]

/-- An error in a repository is no error of the whole. -/
theorem neverFails_crawlRepos (repos : List String) : NeverFails (crawlRepos api options repos) := by
  induction repos with
  | nil => exact .pure 0
  | cons repo rest ih => exact .bind (neverFails_attempt _) fun _ => .bind ih fun _ => .pure _

/-- The names of the repositories that the organization owns. -/
def ownNames (org : String) (listed : List Repository) : List String :=
  (listed.filter fun r => Text.sameIgnoringCase r.owner org).map (·.name)

section Listing

variable {s : CrawlState}

theorem run?_crawlOrg_error {cause : String} (h : api.repositories s.trace options.org = .error cause) :
    run? (crawlOrg api options) s =
      some (.error (.api cause), s.after (.ask (.repositories options.org))) :=
  (run?_eq_some_iff (isSteady_crawlOrg api options)).2
    ⟨0, outcome_bind_error (outcome_ask_error h) _⟩

theorem outcome_crawlOrg_ok {listed : List Repository} (n : Nat)
    (h : api.repositories s.trace options.org = .ok listed) :
    outcome (crawlOrg api options) n s =
      outcome (crawlRepos api options (ownNames options.org listed)) n
        (s.after (.ask (.repositories options.org))) :=
  outcome_bind_ok (outcome_ask_ok h) _

theorem run?_crawlOrg_ok {listed : List Repository}
    (h : api.repositories s.trace options.org = .ok listed) :
    run? (crawlOrg api options) s =
      run? (crawlRepos api options (ownNames options.org listed))
        (s.after (.ask (.repositories options.org))) := by
  refine Option.ext fun ended => ?_
  rw [run?_eq_some_iff (isSteady_crawlOrg api options), run?_eq_some_iff (isSteady_crawlRepos api options _)]
  simp only [outcome_crawlOrg_ok _ h]

end Listing

/-- The crawl of an organization fails just if its repositories cannot be listed, and then it does nothing
    else. Otherwise, if the crawl of each repository of its own comes to an end where it can write, it does for
    each of them in the order of the listing what a crawl of that one does wherever it starts, and says how
    many such crawls succeed. -/
theorem repositories_crawled_apart (h : api.IsMemoryless) (options : CrawlOptions) (s : CrawlState) :
    ((∃ e t, run? (crawlOrg api options) s = some (.error e, t)) ↔
      ∃ cause, api.repositories [] options.org = .error cause) ∧
    (∀ cause, api.repositories [] options.org = .error cause →
      run? (crawlOrg api options) s =
        some (.error (.api cause), s.after (.ask (.repositories options.org)))) ∧
    ∃ plan : String → Plan CrawlError Unit,
      (∀ repo t, Writable (crawlRepo api options repo) t → Ends (crawlRepo api options repo) t →
        Follows (crawlRepo api options repo) t (plan repo)) ∧
      ∀ listed, api.repositories [] options.org = .ok listed →
        (∀ repo ∈ ownNames options.org listed, ∃ t, Writable (crawlRepo api options repo) t ∧
          Ends (crawlRepo api options repo) t) →
        AllWritable api options (ownNames options.org listed)
          (s.after (.ask (.repositories options.org))) →
        Follows (crawlOrg api options) s {
          deeds := .ask (.repositories options.org) ::
            (ownNames options.org listed).flatMap fun repo => (plan repo).deeds
          result := .ok ((ownNames options.org listed).countP fun repo => (plan repo).result.isOk) } := by
  have hlisting := h.repositories s.trace options.org
  refine ⟨?_, fun cause hcause => run?_crawlOrg_error (hlisting.trans hcause), ?_⟩
  · cases hlisted : api.repositories [] options.org with
    | error cause =>
      rw [run?_crawlOrg_error (hlisting.trans hlisted)]
      simp
    | ok listed =>
      refine ⟨fun hfails => ?_, fun hcause => by simp at hcause⟩
      obtain ⟨e, t, hrun⟩ := hfails
      rw [run?_crawlOrg_ok (hlisting.trans hlisted)] at hrun
      obtain ⟨n, hout⟩ := (run?_eq_some_iff (isSteady_crawlRepos api options _)).1 hrun
      exact absurd (congrArg Prod.fst hout) (neverFails_crawlRepos _ n _ e)
  · choose plan hplan using fun repo =>
      ((partCases_planned h).crawlRepo options repo).exists_follows (isSteady_crawlRepo api options repo)
    refine ⟨plan, fun repo t ht hends => hplan repo ⟨t, ht, hends⟩ t ht, ?_⟩
    intro listed hlisted hends hwritable
    obtain ⟨t, hrun, hcarries⟩ :=
      follows_crawlRepos (fun repo hrepo => hplan repo (hends repo hrepo)) hwritable
    have hask : Carries [.ask (.repositories options.org)] s (s.after (.ask (.repositories options.org))) :=
      carries_one rfl rfl
    exact ⟨t, (run?_crawlOrg_ok (hlisting.trans hlisted)).trans hrun, hask.trans hcarries⟩

/-- A service with three repositories, the first of which has a branch that cannot be looked at. The second one
    is owned by somebody else. -/
def unevenApi : RepoApi where
  rateLimit _ := .ok ⟨9, 100⟩
  repositories _ _ := .ok [⟨"web", "acme", none⟩, ⟨"fork", "other", none⟩, ⟨"docs", "Acme", none⟩]
  defaultBranch _ _ _ := .ok "main"
  branches _ _ _ := .ok ["main", "next"]
  contents _ _ repo branch _ :=
    if repo = "web" ∧ branch = "next" then .error "timeout" else .ok (some (.dir [⟨"a.yml", .file⟩]))
  rawFile _ _ _ _ _ := .ok (some "on: push")

/-- The first repository fails after a file of it has been written, and the third one is copied all the same. -/
theorem unevenApi_goes_on :
    let options : CrawlOptions := { org := "acme", path := "ci", outputDir := "out" }
    let s : CrawlState := { disk := ⟨.empty, []⟩ }
    let listing := CrawlAction.ask (.repositories "acme")
    AllWritable unevenApi options ["web", "docs"] (s.after listing) ∧
      (∃ t, run? (crawlRepo unevenApi options "web") s = some (.error (.api "timeout"), t)) ∧
      (∃ t, run? (crawlRepo unevenApi options "docs") s = some (.ok (), t)) ∧
      ∃ plan : String → Plan CrawlError Unit,
        Follows (crawlRepo unevenApi options "web") s (plan "web") ∧
        Follows (crawlRepo unevenApi options "docs") s (plan "docs") ∧
        Follows (crawlOrg unevenApi options) s
          ⟨.ask (.repositories "acme") :: ((plan "web").deeds ++ (plan "docs").deeds), .ok 1⟩ := by
  intro options s listing
  have hmemoryless : unevenApi.IsMemoryless := by constructor <;> intros <;> rfl
  have hsteady (repo : String) : IsSteady (crawlRepo unevenApi options repo) := isSteady_crawlRepo _ _ _
  have hweb : run? (crawlRepo unevenApi options "web") s = some (.error (.api "timeout"), _) :=
    run?_eq_of_outcome (hsteady _) (n := 1) (by decide +kernel)
  have hdocs : run? (crawlRepo unevenApi options "docs") s = some (.ok (), _) :=
    run?_eq_of_outcome (hsteady _) (n := 1) (by decide +kernel)
  have hwritable : AllWritable unevenApi options ["web", "docs"] (s.after listing) := by
    have hfirst : run? (crawlRepo unevenApi options "web") (s.after listing) =
        some (.error (.api "timeout"), _) :=
      run?_eq_of_outcome (hsteady _) (n := 1) (by decide +kernel)
    refine ⟨writable_of_run? hfirst (by simp), fun ended hended => ?_⟩
    rw [hfirst, Option.some.injEq] at hended
    subst hended
    have hsecond : run? (crawlRepo unevenApi options "docs")
        (outcome (crawlRepo unevenApi options "web") 1 (s.after listing)).2 = some (.ok (), _) :=
      run?_eq_of_outcome (hsteady _) (n := 1) (by decide +kernel)
    exact ⟨writable_of_run? hsecond (by simp), fun _ _ => trivial⟩
  have hwebWritable := writable_of_run? hweb (by simp)
  have hdocsWritable := writable_of_run? hdocs (by simp)
  refine ⟨hwritable, ⟨_, hweb⟩, ⟨_, hdocs⟩, ?_⟩
  obtain ⟨-, -, plan, hplan, horg⟩ := repositories_crawled_apart hmemoryless options s
  obtain ⟨t, hrun, hcarries⟩ := hplan "web" s hwebWritable ⟨_, hweb⟩
  obtain ⟨u, hrun', hcarries'⟩ := hplan "docs" s hdocsWritable ⟨_, hdocs⟩
  refine ⟨plan, ⟨t, hrun, hcarries⟩, ⟨u, hrun', hcarries'⟩, ?_⟩
  rw [hweb, Option.some.injEq, Prod.mk.injEq] at hrun
  rw [hdocs, Option.some.injEq, Prod.mk.injEq] at hrun'
  have howned : ownNames "acme" [⟨"web", "acme", none⟩, ⟨"fork", "other", none⟩, ⟨"docs", "Acme", none⟩] =
      ["web", "docs"] := by decide +kernel
  have hends : ∀ repo ∈ ["web", "docs"], ∃ t, Writable (crawlRepo unevenApi options repo) t ∧
      Ends (crawlRepo unevenApi options repo) t :=
    List.forall_mem_cons.2 ⟨⟨s, hwebWritable, _, hweb⟩,
      List.forall_mem_singleton.2 ⟨s, hdocsWritable, _, hdocs⟩⟩
  have hfollows := horg _ rfl (by rw [howned]; exact hends) (by rw [howned]; exact hwritable)
  simpa [options, howned, ← hrun.1, ← hrun'.1, Except.isOk, Except.toBool] using hfollows

/-- A service with a repository that has a directory which lists itself, and with one that has nothing to
    copy. -/
def selfListingApi : RepoApi where
  rateLimit _ := .ok ⟨5000, 0⟩
  repositories _ _ := .ok [⟨"web", "acme", none⟩, ⟨"docs", "acme", none⟩]
  defaultBranch _ _ _ := .ok "main"
  branches _ _ _ := .ok ["main"]
  contents _ _ repo _ path := .ok (if repo = "web" then some (.dir [⟨path, .dir⟩]) else none)
  rawFile _ _ _ _ _ := .ok none

/-- Each round leaves the directory to be listed once more. -/
theorem selfListingApi_unfinished (options : CrawlOptions) (branch dir : String) {path : String}
    (hsafe : isSafe path = true) (rounds n : Nat) (s : CrawlState) :
    (outcome (copyEntriesFor selfListingApi options "web" branch dir rounds [⟨path, .dir⟩]) n s).1 =
      .error .unfinished := by
  induction rounds generalizing s with
  | zero => rfl
  | succ rounds ih =>
    have hlisted : outcome (contentsAt selfListingApi options "web" branch path) n s =
        (.ok (some (.dir [⟨path, .dir⟩])), _) := rfl
    rw [copyEntriesFor, hsafe]
    exact (congrArg Prod.fst (outcome_bind_ok hlisted _)).trans (ih _)

theorem unfinished_bind {m : Crawl α} {n : Nat} {s : CrawlState} {f : α → Crawl β}
    (h : (outcome m n s).1 = .error .unfinished) : (outcome (m >>= f) n s).1 = .error .unfinished := by
  rw [outcome_bind_error (Prod.ext h rfl)]

theorem unfinished_attempt {m : Crawl Unit} {n : Nat} {s : CrawlState}
    (h : (outcome m n s).1 = .error .unfinished) : (outcome (attempt m) n s).1 = .error .unfinished := by
  rw [outcome_attempt, h]
  rfl

/-- Once the directory of the branch is made and its marker written, the walk has no end. -/
theorem selfListingApi_copyBranch_unfinished {options : CrawlOptions} (hsafe : isSafe options.path = true)
    {branch dir : String} (hdir : Path.join (Path.join options.outputDir "web") branch = dir) (n : Nat)
    {s : CrawlState} (hmade : (s.disk.makeDirs dir).2 = true)
    (hwritten : ((s.disk.makeDirs dir).1.writeFile? (Path.join dir ".git") "").isSome) :
    (outcome (copyBranch selfListingApi options "web" branch) n s).1 = .error .unfinished := by
  obtain ⟨disk, hwritten⟩ := Option.isSome_iff_exists.1 hwritten
  obtain ⟨t, hlisted, ht⟩ : ∃ t, outcome (contentsAt selfListingApi options "web" branch options.path) n s =
      (.ok (some (.dir [⟨options.path, .dir⟩])), t) ∧ t.disk = s.disk := ⟨_, rfl, rfl⟩
  obtain ⟨u, hdirs, hu⟩ : ∃ u, outcome (makeDirs dir) n t = (.ok (), u) ∧
      u.disk = (s.disk.makeDirs dir).1 :=
    ⟨_, by rw [outcome_makeDirs, ht, if_pos hmade], rfl⟩
  rw [← hu] at hwritten
  rw [copyBranch, outcome_bind_ok hlisted]
  simp only [hdir]
  rw [outcome_bind_ok hdirs, outcome_bind_ok (outcome_write_some hwritten), copyEntries,
    outcome_bind_ok (outcome_read _)]
  exact selfListingApi_unfinished options branch dir hsafe n n _

theorem selfListingApi_crawlRepo_unfinished (n : Nat) {s : CrawlState} (hdisk : s.disk = ⟨.empty, []⟩) :
    (outcome (crawlRepo selfListingApi { org := "acme", path := "ci", outputDir := "out" } "web") n s).1 =
      .error .unfinished := by
  obtain ⟨t, hlimit, ht⟩ : ∃ t, outcome (awaitLimit selfListingApi) n s = (.ok (), t) ∧
      t.disk = s.disk := ⟨_, rfl, rfl⟩
  obtain ⟨u, hbranches, hu⟩ : ∃ u,
      outcome (branchesOf selfListingApi { org := "acme", path := "ci", outputDir := "out" } "web") n t =
        (.ok ["main"], u) ∧ u.disk = t.disk := ⟨_, rfl, rfl⟩
  rw [crawlRepo, outcome_bind_ok hlimit, outcome_bind_ok hbranches, copyBranches]
  refine unfinished_bind (selfListingApi_copyBranch_unfinished (by decide +kernel) rfl n ?_ ?_)
  · rw [hu, ht, hdisk]
    decide +kernel
  · rw [hu, ht, hdisk]
    decide +kernel

/-- A service with a repository that is copied to where the marker of another one is. -/
def overlappingApi : RepoApi where
  rateLimit _ := .ok ⟨5000, 0⟩
  repositories _ _ := .ok [⟨"web", "acme", none⟩, ⟨"web/main/.git", "acme", none⟩]
  defaultBranch _ _ _ := .ok "main"
  branches _ _ _ := .ok ["main"]
  contents _ _ _ _ _ := .ok (some (.dir [⟨"ci/a.yml", .file⟩]))
  rawFile _ _ _ _ _ := .ok (some "on: push")

/-- One repository may keep another from being crawled: where a directory lists itself the crawl never gets
    past it, and where the marker of one repository is in the way of the directory of another, both are copied
    alone but only one of them together. -/
theorem repositories_not_apart :
    let options : CrawlOptions := { org := "acme", path := "ci", outputDir := "out" }
    let s : CrawlState := { disk := ⟨.empty, []⟩ }
    (selfListingApi.IsMemoryless ∧
      (∃ t, run? (crawlRepo selfListingApi options "docs") s = some (.ok (), t)) ∧
      run? (crawlRepo selfListingApi options "web") s = none ∧
      run? (crawlOrg selfListingApi options) s = none) ∧
    (overlappingApi.IsMemoryless ∧
      (∃ t, run? (crawlRepo overlappingApi options "web") s = some (.ok (), t)) ∧
      (∃ t, run? (crawlRepo overlappingApi options "web/main/.git") s = some (.ok (), t)) ∧
      ∃ t, run? (crawlOrg overlappingApi options) s = some (.ok 1, t)) := by
  intro options s
  refine ⟨⟨by constructor <;> intros <;> rfl, ?_, ?_, ?_⟩, by constructor <;> intros <;> rfl, ?_, ?_, ?_⟩
  · exact ⟨_, run?_eq_of_outcome (isSteady_crawlRepo _ _ _) (n := 0) (by decide +kernel)⟩
  · exact (run?_eq_none_iff (isSteady_crawlRepo _ _ _)).2 fun n => selfListingApi_crawlRepo_unfinished n rfl
  · refine (run?_eq_none_iff (isSteady_crawlOrg _ _)).2 fun n => ?_
    have howned : ownNames "acme" [⟨"web", "acme", none⟩, ⟨"docs", "acme", none⟩] = ["web", "docs"] := by
      decide +kernel
    rw [outcome_crawlOrg_ok n rfl, howned, crawlRepos]
    exact unfinished_bind (unfinished_attempt (selfListingApi_crawlRepo_unfinished n rfl))
  · exact ⟨_, run?_eq_of_outcome (isSteady_crawlRepo _ _ _) (n := 1) (by decide +kernel)⟩
  · exact ⟨_, run?_eq_of_outcome (isSteady_crawlRepo _ _ _) (n := 1) (by decide +kernel)⟩
  · exact ⟨_, run?_eq_of_outcome (isSteady_crawlOrg _ _) (n := 1) (by decide +kernel)⟩

end Crawl

end WorkflowAudit
