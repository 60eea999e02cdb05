import WorkflowAudit.Proofs.Remote.Actions
import WorkflowAudit.Proofs.Remote.Parts

/-!
When a crawl asks for how many requests are left. Listing the branches of a repository, asking for its
default branch and looking at what is at a path each start a batch of requests. Main statement: whatever the
service answers, the request before one that starts a batch is one for the limit; it succeeded, and if few
requests were left then the crawl has slept past the time at which there are more.
-/

namespace WorkflowAudit

/-- The request starts a batch of requests. -/
def ApiRequest.startsBatch : ApiRequest → Bool
  | defaultBranch _ _ | branches _ _ | contents _ _ _ _ => true
  | rateLimit | repositories _ | rawFile _ _ _ _ => false

namespace Crawl

variable {α β : Type} (api : RepoApi)

/-! ### Traces -/

/-- What the clock shows after more actions. -/
def clockAfter (s : CrawlState) (done : List CrawlAction) : Nat :=
  s.now + slept done + api.elapsed (s.trace ++ done)

/-- The last request of the actions is one for the limit. It succeeded, and if few requests were left it is
    followed by enough sleep. -/
def Awaited (s : CrawlState) (earlier : List CrawlAction) : Prop :=
  ∃ before pause limit, earlier = before ++ .ask .rateLimit :: pause ∧
    (∀ request, CrawlAction.ask request ∉ pause) ∧
    api.rateLimit (s.trace ++ before) = .ok limit ∧
    (limit.remaining < 10 →
      limit.reset - clockAfter api s (before ++ [.ask .rateLimit]) + 5 ≤ slept pause)

/-- Whenever a batch is started, the limit has been awaited. -/
def Paced (s : CrawlState) (done : List CrawlAction) : Prop :=
  ∀ earlier request later, done = earlier ++ .ask request :: later → request.startsBatch = true →
    Awaited api s earlier

/-- From one state to another, all that is done is paced. -/
def PacedTo (s t : CrawlState) : Prop :=
  ∃ done, t.trace = s.trace ++ done ∧ t.now = s.now + slept done ∧ Paced api s done

variable {api} {s t u : CrawlState}

theorem Awaited.after {first earlier : List CrawlAction} (htrace : t.trace = s.trace ++ first)
    (hnow : t.now = s.now + slept first) (h : Awaited api t earlier) : Awaited api s (first ++ earlier) := by
  obtain ⟨before, pause, limit, rfl, hquiet, hlimit, hslept⟩ := h
  refine ⟨first ++ before, pause, limit, by simp, hquiet, ?_, ?_⟩
  · rwa [htrace, List.append_assoc] at hlimit
  · have hclock : clockAfter api t (before ++ [.ask .rateLimit]) =
        clockAfter api s (first ++ before ++ [.ask .rateLimit]) := by
      simp only [clockAfter, htrace, hnow, slept_append, List.append_assoc]
      omega
    rwa [← hclock]

theorem paced_of_no_batch {done : List CrawlAction}
    (h : ∀ request, CrawlAction.ask request ∈ done → request.startsBatch = false) : Paced api s done := by
  rintro earlier request later rfl hbatch
  rw [h request (by simp)] at hbatch
  cases hbatch

theorem PacedTo.refl (s : CrawlState) : PacedTo api s s :=
  ⟨[], by simp, rfl, paced_of_no_batch fun _ h => by cases h⟩

theorem PacedTo.trans (h₁ : PacedTo api s t) (h₂ : PacedTo api t u) : PacedTo api s u := by
  obtain ⟨first, htrace₁, hnow₁, hpaced₁⟩ := h₁
  obtain ⟨second, htrace₂, hnow₂, hpaced₂⟩ := h₂
  refine ⟨first ++ second, by simp [htrace₁, htrace₂], by rw [hnow₂, hnow₁, slept_append, Nat.add_assoc], ?_⟩
  intro earlier request later hsplit hbatch
  rcases List.append_eq_append_iff.1 hsplit with ⟨more, rfl, hsecond⟩ | ⟨more, hfirst, hmore⟩
  · exact (hpaced₂ more request later hsecond hbatch).after htrace₁ hnow₁
  · cases more with
    | nil =>
      -- The request is the first one of the second part.
      have hstart := (hpaced₂ [] request later hmore.symm hbatch).after htrace₁ hnow₁
      rwa [hfirst, List.append_nil, List.append_nil] at hstart
    | cons action more =>
      obtain ⟨rfl, -⟩ := List.cons.inj hmore
      exact hpaced₁ earlier request more hfirst hbatch

theorem pacedTo_one {action : CrawlAction} (htrace : t.trace = s.trace ++ [action])
    (hnow : t.now = s.now + action.seconds)
    (h : ∀ request, action = .ask request → request.startsBatch = false) : PacedTo api s t := by
  refine ⟨[action], htrace, by simpa [slept] using hnow, paced_of_no_batch fun request hrequest => ?_⟩
  exact h request (List.mem_singleton.1 hrequest).symm

/-- The request that ends the actions is the only one of them that may start a batch. -/
theorem paced_batch {limit : RateLimit} {pause : List CrawlAction} (request : ApiRequest)
    (hlimit : api.rateLimit s.trace = .ok limit) (hquiet : ∀ r, CrawlAction.ask r ∉ pause)
    (hslept : limit.remaining < 10 → limit.reset - clockAfter api s [.ask .rateLimit] + 5 ≤ slept pause) :
    Paced api s (.ask .rateLimit :: pause ++ [.ask request]) := by
  intro earlier r later hsplit hbatch
  rcases List.eq_nil_or_concat later with rfl | ⟨more, last, rfl⟩
  · obtain ⟨rfl, -⟩ := List.append_inj' hsplit rfl
    exact ⟨[], pause, limit, rfl, hquiet, by rwa [List.append_nil], hslept⟩
  · rw [List.concat_eq_append, ← List.cons_append, ← List.append_assoc] at hsplit
    obtain ⟨hbefore, -⟩ := List.append_inj' hsplit rfl
    have hmem : CrawlAction.ask r ∈ CrawlAction.ask .rateLimit :: pause := by simp [hbefore]
    rcases List.mem_cons.1 hmem with heq | hmem
    · cases heq
      cases hbatch
    · exact absurd hmem (hquiet r)

/-! ### Parts of a crawl -/

variable (api) in
/-- Wherever the part starts and however far it is followed, all that it does is paced. -/
def KeepsPace (m : Crawl α) : Prop :=
  ∀ n s, PacedTo api s (outcome m n s).2

namespace KeepsPace

theorem pure (a : α) : KeepsPace api (Pure.pure a) :=
  fun _ s => .refl s

theorem unfinished : KeepsPace api (throw .unfinished : Crawl α) :=
  fun _ s => .refl s

theorem bind {m : Crawl α} {f : α → Crawl β} (hm : KeepsPace api m) (hf : ∀ a, KeepsPace api (f a)) :
    KeepsPace api (m >>= f) := by
  intro n s
  have hfirst := hm n s
  cases hout : outcome m n s with
  | mk result t =>
    rw [hout] at hfirst
    cases result with
    | ok a =>
      rw [outcome_bind_ok hout]
      exact hfirst.trans (hf a n t)
    | error e =>
      rw [outcome_bind_error hout]
      exact hfirst

theorem rounds {walk : Nat → Crawl α} (h : ∀ rounds, KeepsPace api (walk rounds)) :
    KeepsPace api (read >>= walk) := by
  intro n s
  rw [outcome_bind_ok (outcome_read s)]
  exact h n n s

/-- What comes after an error starts where it has stopped. -/
theorem attempt {m : Crawl Unit} (h : KeepsPace api m) : KeepsPace api (Crawl.attempt m) := by
  intro n s
  rw [outcome_attempt]
  exact h n s

theorem ask {request : ApiRequest} (h : request.startsBatch = false)
    (answer : List CrawlAction → Except String α) : KeepsPace api (Crawl.ask request answer) := by
  intro n s
  have hquiet : ∀ r, CrawlAction.ask request = .ask r → r.startsBatch = false := by
    rintro r ⟨⟩
    exact h
  cases hanswer : answer s.trace with
  | ok a =>
    rw [outcome_ask_ok hanswer]
    exact pacedTo_one rfl rfl hquiet
  | error cause =>
    rw [outcome_ask_error hanswer]
    exact pacedTo_one rfl rfl hquiet

theorem makeDirs (path : String) : KeepsPace api (Crawl.makeDirs path) := by
  intro n s
  rw [outcome_makeDirs]
  exact pacedTo_one rfl rfl (by simp)

theorem write (path content : String) : KeepsPace api (Crawl.write path content) := by
  intro n s
  cases hdisk : s.disk.writeFile? path content with
  | some disk =>
    rw [outcome_write_some hdisk]
    exact pacedTo_one rfl rfl (by simp)
  | none =>
    rw [outcome_write_none hdisk]
    exact pacedTo_one rfl rfl (by simp)

/-- A batch may start right after the limit has been awaited. -/
theorem batch (request : ApiRequest) (answer : List CrawlAction → Except String α) :
    KeepsPace api (awaitLimit api >>= fun _ => Crawl.ask request answer) := by
  intro n s
  cases hlimit : api.rateLimit s.trace with
  | error cause =>
    rw [outcome_bind_error (outcome_awaitLimit_error hlimit)]
    exact pacedTo_one rfl rfl (by rintro r ⟨⟩; rfl)
  | ok limit =>
    obtain ⟨t, pause, hout, -, hnow, htrace, hpause, hslept⟩ := outcome_awaitLimit_ok hlimit
    have hquiet (r : ApiRequest) : CrawlAction.ask r ∉ pause := by
      intro hmem
      obtain ⟨seconds, hseconds⟩ := hpause _ hmem
      cases hseconds
    have hlast : (outcome (Crawl.ask request answer) n t).2 = t.after (.ask request) := by
      cases hanswer : answer t.trace with
      | ok a => rw [outcome_ask_ok hanswer]
      | error cause => rw [outcome_ask_error hanswer]
    rw [outcome_bind_ok hout, hlast]
    refine ⟨.ask .rateLimit :: pause ++ [.ask request], ?_, ?_, ?_⟩
    · simp [CrawlState.after, htrace]
    · simpa [slept, CrawlState.after, CrawlAction.seconds] using hnow
    · exact paced_batch request hlimit hquiet fun hfew => hslept hfew

end KeepsPace

variable (api)

theorem partCases_keepsPace : PartCases api fun _ m _ => KeepsPace api m where
  pure := .pure
  unfinished _ := .unfinished
  rounds h := .rounds fun n => h n n le_rfl
  bind := .bind
  makeDirs := .makeDirs
  write := .write
  rawFile _ _ _ _ := .ask rfl _
  contents _ _ _ _ := .batch _ _
  branches _ _ := .batch _ _
  defaultBranch _ _ := .batch _ _

variable (options : CrawlOptions)

theorem keepsPace_crawlRepo (repo : String) : KeepsPace api (crawlRepo api options repo) :=
  (partCases_keepsPace api).crawlRepo options repo

theorem keepsPace_crawlOrg : KeepsPace api (crawlOrg api options) :=
  (partCases_keepsPace api).crawlOrg options .attempt fun _ => .ask rfl _

/-- Whatever the service answers and however far a crawl is followed, the request before one that starts a batch
    is a successful one for the limit, and if few requests are left then there is enough sleep in between. -/
theorem limit_awaited_before_batch (n : Nat) (s : CrawlState) :
    (∀ repo, ∃ done, (outcome (crawlRepo api options repo) n s).2.trace = s.trace ++ done ∧
      Paced api s done) ∧
    ∃ done, (outcome (crawlOrg api options) n s).2.trace = s.trace ++ done ∧ Paced api s done := by
  refine ⟨fun repo => ?_, ?_⟩
  · obtain ⟨done, htrace, -, hpaced⟩ := keepsPace_crawlRepo api options repo n s
    exact ⟨done, htrace, hpaced⟩
  · obtain ⟨done, htrace, -, hpaced⟩ := keepsPace_crawlOrg api options n s
    exact ⟨done, htrace, hpaced⟩

-- After the first sleep the reset has passed, and of the second only the margin is left.
example :
    let api : RepoApi := {
      rateLimit := fun _ => .ok ⟨9, 100⟩
      repositories := fun _ _ => .error "unused"
      defaultBranch := fun _ _ _ => .error "unused"
      branches := fun _ _ _ => .ok ["main"]
      contents := fun _ _ _ _ _ => .ok none
      rawFile := fun _ _ _ _ _ => .error "unused" }
    let options : CrawlOptions := { org := "acme", path := ".github/workflows", outputDir := "out" }
    (outcome (crawlRepo api options "web") 0 { disk := ⟨.empty, []⟩ }).2.trace =
      [.ask .rateLimit, .sleep 105, .ask (.branches "acme" "web"),
        .ask .rateLimit, .sleep 5, .ask (.contents "acme" "web" "main" ".github/workflows")] := by
  rfl

end Crawl

end WorkflowAudit
