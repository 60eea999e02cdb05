import WorkflowAudit.Disk.Write
import WorkflowAudit.Remote.Api
import WorkflowAudit.Text.Ascii

/-!
Copying the workflows of an organization. Each branch of each repository gets a directory of its own
below the output directory, with an empty `.git` in it, so that a later scan takes it for a project.

The service is a function of what has been done before, and all that is done is kept as a trace of
actions, so that statements about a crawl are statements about its trace.

A walk over the entries of a branch lasts as long as the service lists further entries, which may be for
ever. A part of a crawl is therefore followed for a number of rounds of each walk, and says so if that is
not up to its end; to run it is to follow it further and further until it ends.
-/

namespace WorkflowAudit

/-- A request to the service. -/
inductive ApiRequest where
  | rateLimit
  | repositories (org : String)
  | defaultBranch (org repo : String)
  | branches (org repo : String)
  | contents (org repo branch path : String)
  | rawFile (org repo branch path : String)
  deriving DecidableEq, Repr

/-- Something that a crawl does. -/
inductive CrawlAction where
  | ask (request : ApiRequest)
  | sleep (seconds : Nat)
  | makeDirs (path : String)
  | write (path : String)
  deriving DecidableEq, Repr

/-- The service: what it answers after the actions before, the latest last. A failure has a cause. -/
structure RepoApi where
  rateLimit : (earlier : List CrawlAction) → Except String RateLimit
  repositories : (earlier : List CrawlAction) → (org : String) → Except String (List Repository)
  defaultBranch : (earlier : List CrawlAction) → (org repo : String) → Except String String
  branches : (earlier : List CrawlAction) → (org repo : String) → Except String (List String)
  /-- What is at a path; nothing if the path leads nowhere. -/
  contents : (earlier : List CrawlAction) → (org repo branch path : String) →
    Except String (Option Contents)
  /-- The text of a file; nothing if it is gone. -/
  rawFile : (earlier : List CrawlAction) → (org repo branch path : String) →
    Except String (Option String)
  /-- How many seconds the actions before have taken, sleep aside. -/
  elapsed : (earlier : List CrawlAction) → Nat := fun _ => 0

/-- What to copy, and where to. -/
structure CrawlOptions where
  org : String
  /-- The directory or file to copy in each branch. -/
  path : String
  outputDir : String
  defaultBranchOnly : Bool := false
  maxBranches : Option Nat := none

/-- Why a crawl ends early. -/
inductive CrawlError where
  | api (cause : String)
  | unwritable (path : String)
  deriving DecidableEq, Repr

/-- Why a part of a crawl gives no result: it has failed, or it is not followed up to its end. -/
inductive Halt where
  | failed (error : CrawlError)
  | unfinished
  deriving DecidableEq, Repr

/-- The message for an early end. -/
def CrawlError.message : CrawlError → String
  | .api _ => "GitHub API error"
  | .unwritable path => "couldn't write " ++ path

/-- What a crawl works on: the disk, the clock in seconds as sleep moves it on, and the actions so far, the
    latest last. -/
structure CrawlState where
  disk : Disk
  now : Nat := 0
  trace : List CrawlAction := []

/-- A part of a crawl, which is followed for a number of rounds of each walk. What was done before it
    stops stays done. -/
abbrev Crawl := ReaderT Nat (ExceptT Halt (StateM CrawlState))

namespace Crawl

section Running

variable {α : Type}

/-- What a part of a crawl gives as far as it is followed, and the state that it leaves. -/
def outcome (m : Crawl α) (rounds : Nat) (s : CrawlState) : Except Halt α × CrawlState :=
  (m.run rounds).run.run s

/-- How a part of a crawl ends and the state that it leaves, if so many rounds of each walk are enough. -/
def endsWithin? (m : Crawl α) (rounds : Nat) (s : CrawlState) :
    Option (Except CrawlError α × CrawlState) :=
  match outcome m rounds s with
  | (.ok a, t) => some (.ok a, t)
  | (.error (.failed e), t) => some (.error e, t)
  | (.error .unfinished, _) => none

/-- Follows a part of a crawl further and further until it ends. -/
def runFrom? (m : Crawl α) (s : CrawlState) (rounds : Nat) :
    Option (Except CrawlError α × CrawlState) :=
  let ended := endsWithin? m rounds s
  if ended.isSome then ended else m |>.runFrom? s (2 * rounds)
partial_fixpoint

/-- How a part of a crawl ends and the state that it leaves; nothing if it goes on for ever. -/
def run? (m : Crawl α) (s : CrawlState) : Option (Except CrawlError α × CrawlState) :=
  runFrom? m s 1024

end Running

/-- Ends with an error. -/
def fail {α : Type} (error : CrawlError) : Crawl α :=
  throw (.failed error)

/-- Whether the part succeeds. An error of it goes no further. -/
def attempt (m : Crawl Unit) : Crawl Bool := fun rounds => ExceptT.mk do
  match ← (m.run rounds).run with
  | .ok () => return .ok true
  | .error (.failed _) => return .ok false
  | .error .unfinished => return .error .unfinished

/-- Adds an action to the trace. -/
def record (action : CrawlAction) : Crawl Unit :=
  modify fun s => { s with trace := s.trace ++ [action] }

/-- Makes a request. -/
def ask {α : Type} (request : ApiRequest) (answer : List CrawlAction → Except String α) :
    Crawl α := do
  let s ← get
  record (.ask request)
  match answer s.trace with
  | .ok a => return a
  | .error cause => fail (.api cause)

/-- Lets time pass. -/
def sleep (seconds : Nat) : Crawl Unit := do
  record (.sleep seconds)
  modify fun s => { s with now := s.now + seconds }

/-- Makes a directory and those above it. -/
def makeDirs (path : String) : Crawl Unit := do
  record (.makeDirs path)
  let s ← get
  let (disk, made) := s.disk.makeDirs path
  set { s with disk := disk }
  if made then return else fail (.unwritable path)

/-- Writes a file. -/
def write (path content : String) : Crawl Unit := do
  record (.write path)
  let s ← get
  match s.disk.writeFile? path content with
  | some disk => set { s with disk := disk }
  | none => fail (.unwritable path)

/-- Below this many requests left, it is time to wait. -/
def lowLimit : Nat := 10

/-- How long to wait before the next requests. -/
def backoff? (limit : RateLimit) (now : Nat) : Option Nat :=
  if limit.remaining < lowLimit then some (limit.reset - now + 5) else none

/-- Asks how many requests are left, and waits if there are few. -/
def awaitLimit (api : RepoApi) : Crawl Unit := do
  let limit ← ask .rateLimit api.rateLimit
  let s ← get
  match backoff? limit (s.now + api.elapsed s.trace) with
  | some seconds => sleep seconds
  | none => return

/-- The path of an entry stays within the directory that it is joined to. -/
def isSafe (path : String) : Bool :=
  let (lead, body) := Path.split path
  lead = "" && body.all (· ≠ "..")

variable (api : RepoApi) (options : CrawlOptions)

/-- Copies a file of a branch. -/
def copyFile (repo branch dir path : String) : Crawl Unit := do
  let request := ApiRequest.rawFile options.org repo branch path
  match ← ask request (api.rawFile · options.org repo branch path) with
  | none => return
  | some content =>
    let target := Path.join dir path
    match Path.parent? target with
    | some parent => makeDirs parent
    | none => pure ()
    write target content

/-- What is at a path of a branch. -/
def contentsAt (repo branch path : String) : Crawl (Option Contents) := do
  awaitLimit api
  ask (.contents options.org repo branch path) (api.contents · options.org repo branch path)

/-- Copies entries of a branch, the last of them first; the entries of a directory come next. Each round
    takes one of them. -/
def copyEntriesFor (repo branch dir : String) : (rounds : Nat) → List Entry → Crawl Unit
  | _, [] => return
  | 0, _ :: _ => throw .unfinished
  | rounds + 1, entry :: pending => do
    if !isSafe entry.path then copyEntriesFor repo branch dir rounds pending
    else match entry.kind with
      | .file =>
        copyFile api options repo branch dir entry.path
        copyEntriesFor repo branch dir rounds pending
      | .dir =>
        let found ← contentsAt api options repo branch entry.path
        let entries := (found.map Contents.entries).getD []
        copyEntriesFor repo branch dir rounds (entries.reverse ++ pending)
      | .symlink | .submodule => copyEntriesFor repo branch dir rounds pending

/-- Copies entries of a branch for as long as there are any. -/
def copyEntries (repo branch dir : String) (entries : List Entry) : Crawl Unit := do
  copyEntriesFor api options repo branch dir (← read) entries

/-- Copies a branch, if it has anything at the path. -/
def copyBranch (repo branch : String) : Crawl Unit := do
  match ← contentsAt api options repo branch options.path with
  | none => return
  | some contents =>
    let dir := Path.join (Path.join options.outputDir repo) branch
    makeDirs dir
    write (Path.join dir ".git") ""
    copyEntries api options repo branch dir contents.entries.reverse

/-- The branches of a repository to copy. -/
def branchesOf (repo : String) : Crawl (List String) := do
  if options.defaultBranchOnly then
    let request := ApiRequest.defaultBranch options.org repo
    return [← ask request (api.defaultBranch · options.org repo)]
  else
    let branches ← ask (.branches options.org repo) (api.branches · options.org repo)
    return match options.maxBranches with
      | some most => branches.take most
      | none => branches

/-- Copies branches one after the other. -/
def copyBranches (repo : String) : List String → Crawl Unit
  | [] => return
  | branch :: rest => do
    copyBranch api options repo branch
    copyBranches repo rest

/-- Copies the branches of a repository. -/
def crawlRepo (repo : String) : Crawl Unit := do
  awaitLimit api
  copyBranches api options repo (← branchesOf api options repo)

/-- Copies repositories one after the other and counts those without an error. -/
def crawlRepos : List String → Crawl Nat
  | [] => return 0
  | repo :: rest => do
    let copied ← attempt (crawlRepo api options repo)
    let others ← crawlRepos rest
    return if copied then others + 1 else others

/-- Copies the repositories that the organization owns, and says how many could be copied. Only a
    failure to list them ends it. -/
def crawlOrg : Crawl Nat := do
  let repositories ← ask (.repositories options.org) (api.repositories · options.org)
  let own := repositories.filter fun r => Text.sameIgnoringCase r.owner options.org
  crawlRepos api options (own.map (·.name))

end Crawl

end WorkflowAudit
