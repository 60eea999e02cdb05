import WorkflowAudit.Cli.Run

/-!
The program. It puts the files that a command looks at on a disk of the library, runs the command on
that disk, and writes what the run ends with. The network is not used.
-/

namespace WorkflowAudit.Cli

/-- The variables that are looked at. -/
def variableNames : List String :=
  ["CLICOLOR_FORCE", "FORCE_COLOR", "GH_HOST", "GH_TOKEN", "NO_COLOR", "RUNWARDEN_CONFIG",
    "RUNWARDEN_OFFLINE"]

/-- The environment. -/
def readEnvironment : IO Environment :=
  variableNames.filterMapM fun name => return (← IO.getEnv name).map (name, ·)

/-- The tree at a path; nothing if there is none that can be read. -/
partial def readTree? (path : String) : IO (Option FileTree) := do
  try
    let place ← IO.FS.realPath path
    if ← place.isDir then
      let entries ← place.readDir
      let trees ← entries.toList.filterMapM fun e =>
        return (← readTree? e.path.toString).map (e.fileName, ·)
      return some (.dir trees)
    else return some (.file (← IO.FS.readBinFile path))
  catch _ => return none

/-- The tree with another put in it, at a list of names. -/
def graft (t child : FileTree) : List String → FileTree
  | [] => child
  | name :: rest => t.setChild name (graft ((t.child? name).getD .empty) child rest)

/-- The names that a path passes through and the names that it leads to, each from the root. -/
def placesOf (cwd : List String) (path : String) : List (List String) × List String :=
  let start := if Path.isAbsolute path then [] else cwd
  let step (places : List (List String) × List String) (part : String) :=
    let (passed, place) := places
    let next :=
      if Path.isIdle part then place else if part = ".." then place.dropLast else place ++ [part]
    (passed ++ [place], next)
  (Path.parts path).foldl step ([], start)

/-- The disk with what is at a path put on it. -/
def withPath (d : Disk) (path : String) : IO Disk := do
  match ← readTree? path with
  | none => return d
  | some t =>
    let (passed, place) := placesOf d.cwd path
    let root := passed.foldl (fun root names => (root.makeDirs? names).getD root) d.root
    return { d with root := graft root t place }

/-- The disk with a directory put on it where there is something at a path. -/
def withMarker (d : Disk) (path : String) : IO Disk := do
  let found ← try discard (IO.FS.realPath path); pure true catch _ => pure false
  if d.has path || !found then return d
  let (passed, place) := placesOf d.cwd path
  let root := passed.foldl (fun root names => (root.makeDirs? names).getD root) d.root
  return { d with root := graft root .empty place }

/-- The disk that a scan looks at: configuration files, the inputs, and the projects that they belong
    to. -/
def scanDisk (cwd : List String) (c : ScanCommand) : IO Disk := do
  let here : Disk := ⟨(FileTree.empty.makeDirs? cwd).getD .empty, cwd⟩
  let inputs := if c.inputs.isEmpty then ["."] else c.inputs
  let disk ← (c.config.toList ++ Config.candidates ++ inputs).foldlM withPath here
  let files := (disk.collect c.inputs).toOption.getD []
  let dirs := files.flatMap fun file => Path.ancestors (Path.orHere ((Path.parent? file).getD "."))
  let markers := (dirs.map fun dir => Path.join (Path.orHere dir) ".git").eraseDups
  let disk ← markers.foldlM withMarker disk
  ((files.map disk.projectRoot).eraseDups).foldlM withPath disk

/-- Runs a command line on the files there are, and gives the exit code. -/
def runHere (args : List String) : IO UInt32 := do
  let env ← readEnvironment
  let cwd := (Path.parts (← IO.currentDir).toString).filter (· ≠ "")
  let disk ← match request? env args with
    | some (.run _ (.scan c)) => scanDisk cwd c
    | _ => pure ⟨(FileTree.empty.makeDirs? cwd).getD .empty, cwd⟩
  let some outcome := run (.disconnected disk env) args
    | throw (IO.userError "the run does not end")
  IO.print outcome.output
  outcome.failureLines.forM IO.eprintln
  if outcome matches .misused then
    IO.eprintln "error: the command line is not understood; try '--help'"
  return outcome.code.toUInt32

end WorkflowAudit.Cli

/-- The program. -/
def main (args : List String) : IO UInt32 :=
  WorkflowAudit.Cli.runHere args
