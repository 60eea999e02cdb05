import WorkflowAudit.ActionIndex
import WorkflowAudit.IgnoreRules
import WorkflowAudit.Table

/-!
The project that a workflow belongs to: the tree that references to local actions are looked up in.
-/

namespace WorkflowAudit

/-- The root of a file's project: the nearest directory above the file that holds `.git`, or else the
    directory above the nearest `.github`, or else the file's own directory. -/
def Disk.projectRoot (d : Disk) (file : String) : String :=
  let dir := Path.orHere ((Path.parent? file).getD ".")
  match ((Path.ancestors dir).map Path.orHere).find? fun a => d.has (Path.join a ".git") with
  | some repository => repository
  | none =>
    match (Path.ancestors dir).find? fun a => Path.fileName? a = some ".github" with
    | some settings => ((Path.parent? settings).map Path.orHere).getD dir
    | none => dir

namespace ActionIndex

/-- The files that can define the action of a directory, the one that counts most first. -/
def definitionNames : List String :=
  ["action.yml", "action.yaml"]

/-- The action that a file defines. -/
def definitionIn? (path : String) (content : ByteArray) : Option ActionDefinition := do
  guard ((Path.fileName? path).any definitionNames.contains)
  ActionDefinition.parse? (← String.fromUTF8? content)

/-- The directory of a file as it is seen from the root; a file that is not below the root counts as one
    of the root itself. -/
def directoryOf (root path : String) : String :=
  "/".intercalate (((Path.parent? path).bind (Path.namesFrom? root)).getD [])

/-- Adds what a file defines. A second definition for a directory stands only if its file is the one that
    counts most; a file that does not define an action is passed over. -/
def add (root : String) (index : ActionIndex) (file : String × ByteArray) : ActionIndex :=
  match definitionIn? file.1 file.2 with
  | none => index
  | some action =>
    let directory := directoryOf root file.1
    if Path.fileName? file.1 = definitionNames.head? || (index.actions.lookup directory).isNone then
      ⟨Table.insert index.actions directory action⟩
    else index

/-- The actions that files below a root define, visited one after the other. -/
def ofFiles (root : String) (files : List (String × ByteArray)) : ActionIndex :=
  files.foldl (add root) {}

/-- The actions of the project with this root. -/
def ofProject (d : Disk) (root : String) : ActionIndex :=
  match d.lookup root with
  | .ok (.file content) => ofFiles root [(root, content)]
  | .ok t => ofFiles root (t.walk.map fun file => (Path.descend root file.1, file.2))
  | .error _ => {}

end ActionIndex

end WorkflowAudit
