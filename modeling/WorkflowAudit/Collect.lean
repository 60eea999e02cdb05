import WorkflowAudit.IgnoreRules

/-!
The workflow files that inputs stand for. A file stands for itself, and a directory for the workflows
of the projects below it.
-/

namespace WorkflowAudit

/-- The file at a path is a workflow of a project. -/
def isWorkflowPath (path : String) : Bool :=
  match Path.fileName? path, Path.parent? path with
  | some name, some dir =>
    (Path.extension? name = some "yml" || Path.extension? name = some "yaml") &&
      Path.endsWith dir [".github", "workflows"]
  | _, _ => false

/-- The workflows below a directory, as paths that start with the path of the directory. -/
def workflowsBelow (dir : String) (t : FileTree) : List String :=
  (t.walk.map fun (names, _) => Path.join dir ("/".intercalate names)).filter isWorkflowPath

/-- The workflows that an input stands for; nothing if it leads nowhere. -/
def Disk.workflowsOf? (d : Disk) (input : String) : Option (List String) :=
  match d.lookup input with
  | .ok (.file _) => some [input]
  | .ok t => some (workflowsBelow input t)
  | .error _ => none

/-- The workflows that inputs stand for, or the first input that leads nowhere. Without inputs it is
    the current directory that counts. -/
def Disk.collect (d : Disk) (inputs : List String) : Except String (List String) := do
  let inputs := if inputs.isEmpty then ["."] else inputs
  let found ← inputs.mapM fun input =>
    match d.workflowsOf? input with
    | some paths => .ok paths
    | none => .error input
  return found.flatten

end WorkflowAudit
