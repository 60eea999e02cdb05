import WorkflowAudit.Proofs.Remote.Actions
import WorkflowAudit.Proofs.Remote.Parts

/-!
How far a crawl is followed. A crawl that ends within some rounds of each walk does the same and ends the same
when it is followed further. Main statements: to run a crawl gives how it ends and what it leaves just if that
is found within some number of rounds, and gives nothing just if no number of rounds is enough.
-/

namespace WorkflowAudit.Crawl

variable {α β : Type}

/-- Where the first part ends, the second one, followed at least as far, does and gives the same. -/
def Extends (m m' : Crawl α) : Prop :=
  ∀ n k s, n ≤ k → (outcome m n s).1 = .error .unfinished ∨ outcome m' k s = outcome m n s

namespace Extends

/-- A part that never looks at the rounds. -/
theorem of_const {m : Crawl α} (h : ∀ n k s, outcome m n s = outcome m k s) : Extends m m :=
  fun n k s _ => .inr (h k n s)

theorem unfinished (m : Crawl α) : Extends (throw .unfinished) m :=
  fun _ _ _ _ => .inl rfl

theorem bind {m m' : Crawl α} {f f' : α → Crawl β} (hm : Extends m m')
    (hf : ∀ a, Extends (f a) (f' a)) : Extends (m >>= f) (m' >>= f') := by
  intro n k s hle
  cases hout : outcome m n s with
  | mk result t =>
    cases result with
    | error halt =>
      rw [outcome_bind_error hout]
      rcases hm n k s hle with hstop | hsame
      · rw [hout] at hstop
        cases hstop
        exact .inl rfl
      · exact .inr (outcome_bind_error (hsame.trans hout) f')
    | ok a =>
      rw [outcome_bind_ok hout]
      rcases hm n k s hle with hstop | hsame
      · rw [hout] at hstop
        cases hstop
      · rw [outcome_bind_ok (hsame.trans hout)]
        exact hf a n k t hle

theorem ask (request : ApiRequest) (answer : List CrawlAction → Except String α) :
    Extends (ask request answer) (ask request answer) := by
  refine of_const fun n k s => ?_
  cases hanswer : answer s.trace with
  | ok a => rw [outcome_ask_ok hanswer, outcome_ask_ok hanswer]
  | error cause => rw [outcome_ask_error hanswer, outcome_ask_error hanswer]

theorem write (path content : String) : Extends (write path content) (write path content) := by
  refine of_const fun n k s => ?_
  cases hdisk : s.disk.writeFile? path content with
  | some disk => rw [outcome_write_some hdisk, outcome_write_some hdisk]
  | none => rw [outcome_write_none hdisk, outcome_write_none hdisk]

theorem makeDirs (path : String) : Extends (makeDirs path) (makeDirs path) :=
  of_const fun n k s => by rw [outcome_makeDirs, outcome_makeDirs]

theorem awaitLimit (api : RepoApi) : Extends (awaitLimit api) (awaitLimit api) := by
  refine .bind (.ask _ _) fun limit => .bind (.of_const fun _ _ _ => rfl) fun s => ?_
  cases backoff? limit (s.now + api.elapsed s.trace) with
  | some seconds => exact .of_const fun _ _ _ => rfl
  | none => exact .of_const fun _ _ _ => rfl

theorem rounds {walk : Nat → Crawl α} (h : ∀ n k, n ≤ k → Extends (walk n) (walk k)) :
    Extends (read >>= walk) (read >>= walk) := by
  intro n k s hle
  rw [outcome_bind_ok (outcome_read s), outcome_bind_ok (outcome_read s)]
  exact h n k hle n k s hle

theorem attempt {m m' : Crawl Unit} (h : Extends m m') : Extends (attempt m) (attempt m') := by
  intro n k s hle
  rw [outcome_attempt, outcome_attempt]
  rcases h n k s hle with hstop | hsame
  · exact .inl (by rw [hstop]; rfl)
  · exact .inr (by rw [hsame])

end Extends

theorem partCases_extends (api : RepoApi) : PartCases api fun _ => Extends where
  pure _ := .of_const fun _ _ _ => rfl
  unfinished := .unfinished
  rounds := .rounds
  bind := .bind
  makeDirs := .makeDirs
  write := .write
  rawFile _ _ _ _ := .ask _ _
  contents _ _ _ _ := .bind (.awaitLimit api) fun _ => .ask _ _
  branches _ _ := .bind (.awaitLimit api) fun _ => .ask _ _
  defaultBranch _ _ := .bind (.awaitLimit api) fun _ => .ask _ _

/-- To follow the part further does not change how it ends. -/
def IsSteady (m : Crawl α) : Prop :=
  Extends m m

section Parts

variable (api : RepoApi) (options : CrawlOptions)

theorem isSteady_copyBranch (repo branch : String) : IsSteady (copyBranch api options repo branch) :=
  (partCases_extends api).copyBranch options repo branch

theorem isSteady_crawlRepo (repo : String) : IsSteady (crawlRepo api options repo) :=
  (partCases_extends api).crawlRepo options repo

theorem isSteady_crawlRepos (repos : List String) : IsSteady (crawlRepos api options repos) :=
  (partCases_extends api).crawlRepos options .attempt repos

theorem isSteady_crawlOrg : IsSteady (crawlOrg api options) :=
  (partCases_extends api).crawlOrg options .attempt fun _ => .ask _ _

end Parts

/-! ### Up to the end -/

/-- How the end of a part shows in its outcome. -/
def ending (ended : Except CrawlError α × CrawlState) : Except Halt α × CrawlState :=
  (ended.1.mapError .failed, ended.2)

variable {m : Crawl α} {n : Nat} {s : CrawlState} {ended : Except CrawlError α × CrawlState}

theorem endsWithin?_eq_some_iff : endsWithin? m n s = some ended ↔ outcome m n s = ending ended := by
  obtain ⟨result, t⟩ := ended
  rw [endsWithin?, ending]
  cases outcome m n s with
  | mk found u =>
    cases found with
    | ok a => cases result <;> simp [Except.mapError]
    | error halt => cases halt <;> cases result <;> simp [Except.mapError]

theorem endsWithin?_eq_none_iff :
    endsWithin? m n s = none ↔ (outcome m n s).1 = .error .unfinished := by
  rw [endsWithin?]
  cases outcome m n s with
  | mk found u =>
    cases found with
    | ok a => simp
    | error halt => cases halt <;> simp

theorem IsSteady.outcome_eq (h : IsSteady m) {k : Nat} (hle : n ≤ k)
    (hended : outcome m n s = ending ended) : outcome m k s = ending ended := by
  rcases h n k s hle with hstop | hsame
  · rw [hended, ending] at hstop
    cases hresult : ended.1 <;> simp [hresult, Except.mapError] at hstop
  · rw [hsame, hended]

theorem IsSteady.endsWithin? (h : IsSteady m) {k : Nat} (hle : n ≤ k)
    (hended : endsWithin? m n s = some ended) : endsWithin? m k s = some ended := by
  rw [endsWithin?_eq_some_iff] at hended ⊢
  exact h.outcome_eq hle hended

theorem exists_endsWithin?_of_runFrom? {start : Nat} (h : runFrom? m s start = some ended) :
    ∃ n, Crawl.endsWithin? m n s = some ended := by
  refine runFrom?.partial_correctness m s (fun _ ended => ∃ n, Crawl.endsWithin? m n s = some ended)
    (fun next ih rounds found hfound => ?_) start ended h
  cases hwithin : Crawl.endsWithin? m rounds s with
  | some earlier =>
    rw [hwithin] at hfound
    exact ⟨rounds, hwithin.trans hfound⟩
  | none =>
    rw [hwithin] at hfound
    exact ih _ found hfound

/-- Each time the part is followed twice as far, so that after enough times it ends. -/
theorem IsSteady.runFrom? (h : IsSteady m) (hended : Crawl.endsWithin? m n s = some ended)
    (times start : Nat) (hstart : 0 < start) (hle : n ≤ start + times) :
    Crawl.runFrom? m s start = some ended := by
  induction times generalizing start with
  | zero =>
    rw [Nat.add_zero] at hle
    rw [Crawl.runFrom?, h.endsWithin? hle hended, Option.isSome_some, if_pos rfl]
  | succ times ih =>
    rw [Crawl.runFrom?]
    cases hwithin : Crawl.endsWithin? m start s with
    | none => exact ih (2 * start) (by omega) (by omega)
    | some earlier =>
      have hlater := h.endsWithin? (Nat.le_add_right start (times + 1)) hwithin
      rw [h.endsWithin? hle hended] at hlater
      exact hlater.symm

/-- A run gives how the part ends and what it leaves just if some number of rounds does. -/
theorem run?_eq_some_iff (h : IsSteady m) :
    run? m s = some ended ↔ ∃ n, outcome m n s = ending ended := by
  simp only [← endsWithin?_eq_some_iff]
  refine ⟨exists_endsWithin?_of_runFrom?, fun hended => ?_⟩
  obtain ⟨n, hended⟩ := hended
  exact h.runFrom? hended n 1024 (by decide) (by omega)

theorem run?_eq_of_outcome (h : IsSteady m) {result : Except CrawlError α}
    (hresult : (outcome m n s).1 = result.mapError .failed) :
    run? m s = some (result, (outcome m n s).2) :=
  (run?_eq_some_iff h).2 ⟨n, Prod.ext hresult rfl⟩

/-- A run gives nothing just if no number of rounds is enough. -/
theorem run?_eq_none_iff (h : IsSteady m) :
    run? m s = none ↔ ∀ n, (outcome m n s).1 = .error .unfinished := by
  simp only [← endsWithin?_eq_none_iff, Option.eq_none_iff_forall_ne_some]
  refine ⟨fun hnever n ended hended => ?_, fun hnever ended hended => ?_⟩
  · rw [endsWithin?_eq_some_iff] at hended
    exact hnever ended ((run?_eq_some_iff h).2 ⟨n, hended⟩)
  · obtain ⟨n, hended⟩ := (run?_eq_some_iff h).1 hended
    exact hnever n ended (endsWithin?_eq_some_iff.2 hended)

/-! ### Runs of parts one after the other -/

theorem run?_bind_ok {f : α → Crawl β} {a : α} {t : CrawlState} (hm : IsSteady m)
    (hf : ∀ a, IsSteady (f a)) (h : run? m s = some (.ok a, t)) : run? (m >>= f) s = run? (f a) t := by
  obtain ⟨n, hfirst⟩ := (run?_eq_some_iff hm).1 h
  have hbind : IsSteady (m >>= f) := Extends.bind hm hf
  have hsame {k : Nat} (hle : n ≤ k) : outcome (m >>= f) k s = outcome (f a) k t :=
    outcome_bind_ok (hm.outcome_eq hle hfirst) f
  refine Option.ext fun ended => ?_
  rw [run?_eq_some_iff hbind, run?_eq_some_iff (hf a)]
  constructor
  · rintro ⟨k, hended⟩
    refine ⟨max n k, ?_⟩
    rw [← hsame (le_max_left n k)]
    exact hbind.outcome_eq (le_max_right n k) hended
  · rintro ⟨k, hended⟩
    refine ⟨max n k, ?_⟩
    rw [hsame (le_max_left n k)]
    exact (hf a).outcome_eq (le_max_right n k) hended

theorem run?_attempt {m : Crawl Unit} {result : Except CrawlError Unit} {t : CrawlState}
    (hm : IsSteady m) (h : run? m s = some (result, t)) :
    run? (attempt m) s = some (.ok result.isOk, t) := by
  obtain ⟨n, hended⟩ := (run?_eq_some_iff hm).1 h
  refine (run?_eq_some_iff hm.attempt).2 ⟨n, ?_⟩
  rw [outcome_attempt, hended]
  cases result <;> rfl

theorem run?_pure (a : α) (s : CrawlState) : run? (pure a) s = some (.ok a, s) :=
  (run?_eq_some_iff (.of_const fun _ _ _ => rfl)).2 ⟨0, rfl⟩

end WorkflowAudit.Crawl
