import WorkflowAudit.Batch

/-!
Scanning files. Each file is walked over with the selected rules watching; the findings that are not to
be ignored are put in the order of their places.
-/

namespace WorkflowAudit

/-- The place of `a` is not after the place of `b`. -/
def Finding.notAfter (a b : Finding) : Bool :=
  a.position.line < b.position.line ||
    (a.position.line = b.position.line && a.position.column ≤ b.position.column)

/-- The path as it is shown: below the current directory when it leads there from the root. -/
def Disk.displayPath (d : Disk) (path : String) : String :=
  (Path.below? d.cwd path).getD path

/-- The findings of a file that are shown, in the order of their places. -/
def mergeFindings (settings : Settings) (shownPath : String) (findings : List Finding) :
    List Finding :=
  ((findings.filter fun f => !settings.ignores f.message).map fun f =>
    { f with path := some shownPath }).mergeSort Finding.notAfter

/-- The findings of all files, by file, or the error of the first file that cannot be scanned. -/
def gather (disk : Disk) (settings : Settings) :
    List (String × Except ScanError (List Finding)) → Except ScanError (List Finding)
  | [] => .ok []
  | (path, result) :: rest => do
    let findings ← result
    let others ← gather disk settings rest
    return mergeFindings settings (disk.displayPath path) findings ++ others

/-- Scans files: the findings or an error, and the requests made. One file is scanned by itself; of
    several, each is scanned to its end before the next. -/
def scan (disk : Disk) (around : Surroundings) (paths : List String) :
    Except ScanError (List Finding) × List String :=
  match paths with
  | [] => (.ok [], [])
  | [path] =>
    let actions := ActionIndex.ofProject disk (disk.projectRoot path)
    let task := Task.ofScan (scanFile disk around path (some actions))
    let (result, requests) := task.finish disk around around.earlier
    (gather disk around.settings [(path, result)], requests)
  | paths =>
    let batch := Batch.start disk around 1 paths
    let (results, requests) := Task.finishAll disk around batch.tasks batch.requests
    (gather disk around.settings (paths.zip results), requests)

end WorkflowAudit
