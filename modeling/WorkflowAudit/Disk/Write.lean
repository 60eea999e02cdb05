import WorkflowAudit.FileTree

/-!
Making directories and writing files. What cannot be made or written leaves the tree as it was.
-/

namespace WorkflowAudit

/-- Why a directory or a file cannot be made. -/
inductive WriteError where
  /-- The directory that is to hold it is not there. -/
  | notFound
  /-- Something is in the way. -/
  | blocked
  deriving DecidableEq, Repr

namespace Disk

/-- The directory that the last part of a path is looked up in, by its names from the root, and that
    part. Slashes at the end of the path do not count. -/
def placeOf (d : Disk) (path : String) : Except WriteError (List String × String) :=
  let parts := ((Path.parts path).reverse.dropWhile (· = "")).reverse
  match parts.getLast? with
  | none => .error .blocked
  | some name =>
    match follow d.root (if Path.isAbsolute path then [] else d.cwd.reverse) parts.dropLast with
    | .error .notFound => .error .notFound
    | .error _ => .error .blocked
    | .ok place =>
      match d.root.find? place.reverse with
      | some (.dir _) => .ok (place.reverse, name)
      | _ => .error .blocked

/-- The part is a name and not a step in the tree. -/
def isName (part : String) : Bool :=
  !Path.isIdle part && part ≠ ".."

/-- Makes a directory in one that is there. -/
def makeDir (d : Disk) (path : String) : Except WriteError Disk := do
  let (dir, name) ← d.placeOf path
  if !isName name || (d.root.find? (dir ++ [name])).isSome then .error .blocked
  else match d.root.makeDirs? (dir ++ [name]) with
    | some root => .ok { d with root := root }
    | none => .error .blocked

/-- Makes a directory and those above it that are missing, as far as possible; the flag says whether
    the directory is there in the end. -/
def makeDirs (d : Disk) (path : String) : Disk × Bool :=
  go (path.length + 2) d path
where
  /-- Goes up at most `limit` directories. -/
  go : Nat → Disk → String → Disk × Bool
    | 0, d, _ => (d, false)
    | limit + 1, d, path =>
      if path.isEmpty then (d, true)
      else match d.makeDir path with
        | .ok d => (d, true)
        | .error .blocked => (d, d.isDir path)
        | .error .notFound =>
          match Path.parent? path with
          | none => (d, false)
          | some dir =>
            match go limit d dir with
            | (d, false) => (d, false)
            | (d, true) => match d.makeDir path with
              | .ok d => (d, true)
              | .error _ => (d, d.isDir path)

/-- Writes a file into a directory that is there; nothing if that cannot be done. -/
def writeFile? (d : Disk) (path content : String) : Option Disk :=
  match d.placeOf path with
  | .error _ => none
  | .ok (dir, name) =>
    if !isName name || path.toList.getLast? = some '/' then none
    else (d.root.write? content.toUTF8 (dir ++ [name])).map fun root => { d with root := root }

end Disk

end WorkflowAudit
