import WorkflowAudit.Path

/-!
Files and directories. A tree holds the files that a run can see; a path leads from a directory through
the names of others, with `.` for the directory itself and `..` for the one above it.
-/

namespace WorkflowAudit

/-- A file with its bytes, or a directory with its entries. -/
inductive FileTree where
  | file (content : ByteArray)
  | dir (entries : List (String × FileTree))

/-- Why a file cannot be read. -/
inductive ReadError where
  | notFound | notADirectory | isADirectory | invalidData
  deriving DecidableEq, Repr

namespace FileTree

/-- The empty directory. -/
def empty : FileTree := .dir []

/-- Whether the tree is a directory. -/
def isDir : FileTree → Bool
  | dir _ => true
  | file _ => false

/-- The entry of a directory with a name. -/
def child? : FileTree → String → Option FileTree
  | dir entries, name => entries.lookup name
  | file _, _ => none

/-- The tree under a list of names. -/
def find? (t : FileTree) : List String → Option FileTree
  | [] => some t
  | name :: rest => (t.child? name).bind (·.find? rest)

/-- The directory with an entry put in place of another of that name, or added. -/
def setChild (t : FileTree) (name : String) (child : FileTree) : FileTree :=
  let entries := match t with
    | dir entries => entries
    | file _ => []
  if entries.any (·.1 = name) then
    .dir (entries.map fun e => if e.1 = name then (name, child) else e)
  else .dir (entries ++ [(name, child)])

/-- Makes the directories on the way to a list of names, that directory included. A file on the way
    stops it. -/
def makeDirs? (t : FileTree) : List String → Option FileTree
  | [] => if t.isDir then some t else none
  | name :: rest =>
    if t.isDir then ((t.child? name).getD empty).makeDirs? rest |>.map (t.setChild name) else none

/-- Writes a file into a directory that is there. -/
def write? (t : FileTree) (content : ByteArray) : List String → Option FileTree
  | [] => if t.isDir then none else some (.file content)
  | [name] =>
    if !t.isDir || (t.child? name).any isDir then none else some (t.setChild name (.file content))
  | name :: rest => ((t.child? name).bind (·.write? content rest)).map (t.setChild name)

/-- Takes away what is under a list of names. -/
def remove (t : FileTree) : List String → FileTree
  | [] => t
  | [name] => match t with
    | dir entries => .dir (entries.filter (·.1 ≠ name))
    | file c => .file c
  | name :: rest => match t.child? name with
    | some c => t.setChild name (c.remove rest)
    | none => t

end FileTree

/-- A tree from its root, and the directory that relative paths start from. -/
structure Disk where
  root : FileTree
  cwd : List String

namespace Disk

/-- Follows the parts of a path from a place, given by its names from the root, the last name first. -/
def follow (root : FileTree) : List String → List String → Except ReadError (List String)
  | place, [] => .ok place
  | place, part :: rest =>
    match root.find? place.reverse with
    | none => .error .notFound
    | some (.file _) => .error .notADirectory
    | some t =>
      if Path.isIdle part then follow root place rest
      else if part = ".." then follow root (place.drop 1) rest
      else if (t.child? part).isSome then follow root (part :: place) rest
      else .error .notFound

/-- The names from the root of what a path leads to. -/
def resolve (d : Disk) (path : String) : Except ReadError (List String) :=
  if path = "" then .error .notFound
  else (follow d.root (if Path.isAbsolute path then [] else d.cwd.reverse) (Path.parts path)).map List.reverse

/-- What a path leads to. -/
def lookup (d : Disk) (path : String) : Except ReadError FileTree :=
  match d.resolve path with
  | .error e => .error e
  | .ok names => match d.root.find? names with
    | some t => .ok t
    | none => .error .notFound

/-- Whether a path leads to something. -/
def has (d : Disk) (path : String) : Bool :=
  (d.lookup path).toOption.isSome

/-- Whether a path leads to a file. -/
def isFile (d : Disk) (path : String) : Bool :=
  match d.lookup path with
  | .ok (.file _) => true
  | _ => false

/-- Whether a path leads to a directory. -/
def isDir (d : Disk) (path : String) : Bool :=
  match d.lookup path with
  | .ok (.dir _) => true
  | _ => false

/-- The text of a file. -/
def read (d : Disk) (path : String) : Except ReadError String :=
  match d.lookup path with
  | .error e => .error e
  | .ok (.dir _) => .error .isADirectory
  | .ok (.file content) => match String.fromUTF8? content with
    | some s => .ok s
    | none => .error .invalidData

end Disk

end WorkflowAudit
