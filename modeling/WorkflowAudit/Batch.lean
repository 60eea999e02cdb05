import WorkflowAudit.Catalog
import WorkflowAudit.Dispatch
import WorkflowAudit.Project

/-!
Many files at once. Each file is a task. A task reads its file while it holds one of the permits, of
which there are as many as files may be open, and then walks over the workflow, asking the network where
a rule wants it. The tasks share the permits and the network; in which order they move is left open.
-/

namespace WorkflowAudit

/-- Why a file cannot be scanned. -/
inductive ScanError where
  | unreadable (path : String) (cause : ReadError)
  | malformed (path : String) (cause : Yaml.SyntaxError)

/-- The message for a file that cannot be scanned. -/
def ScanError.message : ScanError → String
  | .unreadable path _ => "couldn't read " ++ path
  | .malformed path _ => "couldn't parse " ++ path

/-- The walk over a file's workflow, with the actions of its project at hand. -/
def scanFile (disk : Disk) (around : Surroundings) (path : String) (actions : Option ActionIndex) :
    Except ScanError (Dialog (List Finding)) :=
  match disk.read path with
  | .error cause => .error (.unreadable path cause)
  | .ok source =>
    match Workflow.parse source with
    | .error cause => .error (.malformed path cause)
    | .ok w => .ok (walk { around with actions := actions } around.rules w)

/-- How far the scan of a file has come. -/
inductive Task where
  /-- It waits for a permit. -/
  | queued (path : String) (actions : Option ActionIndex)
  /-- It holds a permit. -/
  | reading (path : String) (actions : Option ActionIndex)
  | talking (dialog : Dialog (List Finding))
  | finished (result : Except ScanError (List Finding))

namespace Task

/-- The task after its file has been read. -/
def ofScan : Except ScanError (Dialog (List Finding)) → Task
  | .error e => .finished (.error e)
  | .ok dialog => .talking dialog

/-- The result of a task that has one. -/
def result? : Task → Option (Except ScanError (List Finding))
  | .finished result => some result
  | _ => none

end Task

/-- Projects that have been looked at, by their roots. -/
abbrev ProjectCache := List (String × ActionIndex)

namespace ProjectCache

/-- The actions of the project with a root. -/
def get? (cache : ProjectCache) (root : String) : Option ActionIndex :=
  (cache.find? fun p => Path.same p.1 root).map (·.2)

/-- Looks at a project, unless that has been done. -/
def add (disk : Disk) (cache : ProjectCache) (root : String) : ProjectCache :=
  if (cache.get? root).isSome then cache else cache ++ [(root, .ofProject disk root)]

/-- The projects with these roots. -/
def ofRoots (disk : Disk) (roots : List String) : ProjectCache :=
  roots.foldl (add disk) []

end ProjectCache

/-- The tasks of a batch in the order of their files, the permits that are free, and the requests made,
    the latest last. -/
structure Batch where
  tasks : List Task
  free : Nat
  requests : List String

namespace Batch

/-- The batch before any task has moved. -/
def start (disk : Disk) (around : Surroundings) (permits : Nat) (paths : List String) : Batch where
  tasks :=
    let cache := ProjectCache.ofRoots disk (paths.map disk.projectRoot)
    paths.map fun path => .queued path (cache.get? (disk.projectRoot path))
  free := permits
  requests := around.earlier

/-- The batch with a task in the place of another. -/
def put (b : Batch) (i : Nat) (t : Task) : Batch :=
  { b with tasks := b.tasks.set i t }

/-- The batch after the next move of its task `i`; nothing if the task cannot move. -/
def advance (disk : Disk) (around : Surroundings) (b : Batch) (i : Nat) : Option Batch :=
  match b.tasks[i]? with
  | none | some (.finished _) => none
  | some (.queued path actions) =>
    if b.free = 0 then none else some { b.put i (.reading path actions) with free := b.free - 1 }
  | some (.reading path actions) =>
    some { b.put i (.ofScan (scanFile disk around path actions)) with free := b.free + 1 }
  | some (.talking (.done findings)) => some (b.put i (.finished (.ok findings)))
  | some (.talking (.wait _ next)) => some (b.put i (.talking next))
  | some (.talking (.ask url next)) =>
    some { b.put i (.talking (next (around.network.answer b.requests url))) with
      requests := b.requests ++ [url] }

/-- The batch after the moves of its tasks in the order of a schedule. -/
def run (disk : Disk) (around : Surroundings) (b : Batch) (schedule : List Nat) : Option Batch :=
  schedule.foldlM (advance disk around) b

/-- The results of all tasks, when they all have one. -/
def results? (b : Batch) : Option (List (Except ScanError (List Finding))) :=
  b.tasks.mapM Task.result?

end Batch

/-- The result of a task that moves alone, and the requests it makes. -/
def Task.finish (disk : Disk) (around : Surroundings) (requests : List String) :
    Task → Except ScanError (List Finding) × List String
  | .finished result => (result, [])
  | .talking dialog => talk dialog
  | .queued path actions | .reading path actions =>
    match scanFile disk around path actions with
    | .error e => (.error e, [])
    | .ok dialog => talk dialog
where
  /-- The result of a dialog. -/
  talk (dialog : Dialog (List Finding)) : Except ScanError (List Finding) × List String :=
    let (findings, activity) := dialog.run around.network requests {}
    (.ok findings, activity.requests)

/-- The results of tasks that move one after the other, and the requests they make. -/
def Task.finishAll (disk : Disk) (around : Surroundings) :
    List Task → (requests : List String) → List (Except ScanError (List Finding)) × List String
  | [], _ => ([], [])
  | t :: rest, requests =>
    let (result, more) := t.finish disk around requests
    let (results, others) := finishAll disk around rest (requests ++ more)
    (result :: results, more ++ others)

end WorkflowAudit
