import Mathlib
import WorkflowAudit.Remote.Crawl

/-!
The parts that a crawl is made of. A property may relate a part to the same part followed further, so it is
stated of two parts that differ at most in the rounds of their walks. Main statements: what holds of each
single step, of each request that is made right after the limit has been awaited, of two parts one after
the other if it holds of both, and of a walk that stops early next to one that goes on, holds of the crawl of
every repository; if it also survives an error that goes no further, it holds of the crawl of every
organization.
-/

namespace WorkflowAudit.Crawl

/-- The cases to show that a property holds of the crawl of a repository. -/
structure PartCases (api : RepoApi) (motive : (α : Type) → Crawl α → Crawl α → Prop) : Prop where
  pure : ∀ {α : Type} (a : α), motive α (Pure.pure a) (Pure.pure a)
  unfinished : ∀ m, motive Unit (throw .unfinished) m
  rounds : ∀ {walk : Nat → Crawl Unit}, (∀ n k, n ≤ k → motive Unit (walk n) (walk k)) →
    motive Unit (read >>= walk) (read >>= walk)
  bind : ∀ {α β : Type} {m m' : Crawl α} {f f' : α → Crawl β}, motive α m m' →
    (∀ a, motive β (f a) (f' a)) → motive β (m >>= f) (m' >>= f')
  makeDirs : ∀ path, motive Unit (makeDirs path) (makeDirs path)
  write : ∀ path content, motive Unit (write path content) (write path content)
  rawFile : ∀ org repo branch path,
    let part := ask (.rawFile org repo branch path) (api.rawFile · org repo branch path)
    motive _ part part
  contents : ∀ org repo branch path,
    let part := awaitLimit api >>= fun _ =>
      ask (.contents org repo branch path) (api.contents · org repo branch path)
    motive _ part part
  branches : ∀ org repo,
    let part := awaitLimit api >>= fun _ => ask (.branches org repo) (api.branches · org repo)
    motive _ part part
  defaultBranch : ∀ org repo,
    let part := awaitLimit api >>= fun _ =>
      ask (.defaultBranch org repo) (api.defaultBranch · org repo)
    motive _ part part

namespace PartCases

variable {api : RepoApi} {motive : (α : Type) → Crawl α → Crawl α → Prop}
  (h : PartCases api motive) (options : CrawlOptions)

include h

theorem copyFile (repo branch dir path : String) :
    motive Unit (copyFile api options repo branch dir path)
      (copyFile api options repo branch dir path) := by
  refine h.bind (h.rawFile options.org repo branch path) fun found => ?_
  cases found with
  | none => exact h.pure ()
  | some content =>
    cases hparent : Path.parent? (Path.join dir path) with
    | none =>
      simp only [hparent]
      exact h.write _ content
    | some parent =>
      simp only [hparent]
      exact h.bind (h.makeDirs parent) fun _ => h.write _ content

theorem contentsAt (repo branch path : String) :
    motive _ (contentsAt api options repo branch path) (contentsAt api options repo branch path) :=
  h.contents options.org repo branch path

theorem copyEntriesFor (repo branch dir : String) {n k : Nat} (hle : n ≤ k) (pending : List Entry) :
    motive Unit (copyEntriesFor api options repo branch dir n pending)
      (copyEntriesFor api options repo branch dir k pending) := by
  induction n generalizing k pending with
  | zero =>
    cases pending with
    | nil => cases k <;> exact h.pure ()
    | cons entry pending => exact h.unfinished _
  | succ n ih =>
    obtain ⟨k, rfl⟩ := Nat.exists_eq_add_one_of_ne_zero (Nat.ne_zero_of_lt hle)
    have ih := fun pending => ih (Nat.le_of_succ_le_succ hle) pending
    cases pending with
    | nil => exact h.pure ()
    | cons entry pending =>
      rw [Crawl.copyEntriesFor, Crawl.copyEntriesFor]
      split
      · exact ih pending
      · cases entry.kind with
        | file => exact h.bind (h.copyFile options repo branch dir entry.path) fun _ => ih pending
        | dir => exact h.bind (h.contentsAt options repo branch entry.path) fun _ => ih _
        | symlink => exact ih pending
        | submodule => exact ih pending

theorem copyBranch (repo branch : String) :
    motive Unit (copyBranch api options repo branch) (copyBranch api options repo branch) := by
  refine h.bind (h.contentsAt options repo branch options.path) fun found => ?_
  cases found with
  | none => exact h.pure ()
  | some contents =>
    refine h.bind (h.makeDirs _) fun _ => h.bind (h.write _ _) fun _ => ?_
    exact h.rounds fun _ _ hle => h.copyEntriesFor options repo branch _ hle _

theorem copyBranches (repo : String) (branches : List String) :
    motive Unit (copyBranches api options repo branches) (copyBranches api options repo branches) := by
  induction branches with
  | nil => exact h.pure ()
  | cons branch rest ih => exact h.bind (h.copyBranch options repo branch) fun _ => ih

/-- The first request for the branches belongs to the wait before it. -/
theorem branchesOf (repo : String) :
    let part := awaitLimit api >>= fun _ => branchesOf api options repo
    motive _ part part := by
  unfold Crawl.branchesOf
  split
  · rw [← bind_assoc]
    exact h.bind (h.defaultBranch options.org repo) fun _ => h.pure _
  · rw [← bind_assoc]
    exact h.bind (h.branches options.org repo) fun _ => h.pure _

theorem crawlRepo (repo : String) :
    motive Unit (crawlRepo api options repo) (crawlRepo api options repo) := by
  rw [Crawl.crawlRepo, ← bind_assoc]
  exact h.bind (h.branchesOf options repo) (h.copyBranches options repo)

theorem crawlRepos (hattempt : ∀ {m m'}, motive Unit m m' → motive Bool (attempt m) (attempt m'))
    (repos : List String) :
    motive Nat (crawlRepos api options repos) (crawlRepos api options repos) := by
  induction repos with
  | nil => exact h.pure 0
  | cons repo rest ih =>
    exact h.bind (hattempt (h.crawlRepo options repo)) fun _ => h.bind ih fun _ => h.pure _

theorem crawlOrg (hattempt : ∀ {m m'}, motive Unit m m' → motive Bool (attempt m) (attempt m'))
    (hlisting : ∀ org, motive _ (ask (.repositories org) (api.repositories · org))
      (ask (.repositories org) (api.repositories · org))) :
    motive Nat (crawlOrg api options) (crawlOrg api options) :=
  h.bind (hlisting options.org) fun _ => h.crawlRepos options hattempt _

end PartCases

end WorkflowAudit.Crawl
