import WorkflowAudit.JsonValue.Decode

/-!
What the service for repositories answers, and how it is read from JSON.
-/

namespace WorkflowAudit

/-- How many requests are left, and when there will be more, in seconds of the clock. -/
structure RateLimit where
  remaining : Nat
  reset : Nat
  deriving DecidableEq, Repr

/-- A repository. -/
structure Repository where
  name : String
  owner : String
  defaultBranch : Option String
  deriving DecidableEq, Repr

/-- What an entry of a listing is. -/
inductive EntryKind where
  | file | dir | symlink | submodule
  deriving DecidableEq, Repr

/-- An entry of a listing. -/
structure Entry where
  path : String
  kind : EntryKind
  deriving DecidableEq, Repr

/-- What is found at a path: the entries of a directory, or one entry. -/
inductive Contents where
  | dir (entries : List Entry)
  | file (entry : Entry)
  deriving DecidableEq, Repr

/-- The entries that are found at a path. -/
def Contents.entries : Contents → List Entry
  | .dir entries => entries
  | .file entry => [entry]

namespace RateLimit

/-- Reads a rate limit. -/
def ofJson? (v : JsonValue) : Option RateLimit := do
  match ← v.record? ["remaining", "reset"] with
  | [some remaining, some reset] => return ⟨← remaining.word?, ← reset.word?⟩
  | _ => none

end RateLimit

namespace Repository

/-- Reads the owner of a repository. -/
def owner? (v : JsonValue) : Option String := do
  match ← v.record? ["login"] with
  | [some login] => login.text?
  | _ => none

/-- Reads a repository. -/
def ofJson? (v : JsonValue) : Option Repository := do
  match ← v.record? ["name", "owner", "default_branch"] with
  | [some name, some owner, branch] =>
    return ⟨← name.text?, ← owner? owner, ← (branch.getD .null).optional? JsonValue.text?⟩
  | _ => none

end Repository

/-- Reads the name of a branch. -/
def branchOfJson? (v : JsonValue) : Option String := do
  match ← v.record? ["name"] with
  | [some name] => name.text?
  | _ => none

namespace EntryKind

/-- The kind of a name. -/
def ofName? : String → Option EntryKind
  | "file" => some .file
  | "dir" => some .dir
  | "symlink" => some .symlink
  | "submodule" => some .submodule
  | _ => none

/-- The name of a kind. -/
def name : EntryKind → String
  | .file => "file"
  | .dir => "dir"
  | .symlink => "symlink"
  | .submodule => "submodule"

/-- Reads a kind: its name, or an object that has nothing under its name. -/
def ofJson? : JsonValue → Option EntryKind
  | .string name => ofName? name
  | .object [(name, .null)] => ofName? name
  | _ => none

end EntryKind

/-- Reads an entry. -/
def Entry.ofJson? (v : JsonValue) : Option Entry := do
  match ← v.record? ["path", "type"] with
  | [some path, some kind] => return ⟨← path.text?, ← EntryKind.ofJson? kind⟩
  | _ => none

/-- Reads what is found at a path: a list of entries if it can be read so, or else an entry. Since there
    are two ways to read it, numbers that are passed over must have a value too. -/
def Contents.ofJson? (v : JsonValue) : Option Contents := do
  guard v.isFinite
  match (v.items?).bind (·.mapM Entry.ofJson?) with
  | some entries => some (.dir entries)
  | none => (Entry.ofJson? v).map .file

end WorkflowAudit
