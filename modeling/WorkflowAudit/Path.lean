import WorkflowAudit.Text.Split

/-!
Paths as texts. A path is its parts between slashes after a lead, which is `/` for one from the root
and `.` for one that starts with that part. Parts that are empty or `.` name nothing; they are kept as
they are written until a walk up comes past them.
-/

namespace WorkflowAudit.Path

/-- The texts between the slashes of a path. -/
def parts (path : String) : List String :=
  Text.split '/' path

/-- The path starts from the root. -/
def isAbsolute (path : String) : Bool :=
  path.toList.head? = some '/'

/-- A part that leads nowhere. -/
def isIdle (part : String) : Bool :=
  part = "" || part = "."

/-- The lead of a path and the parts after it. -/
def split (path : String) : String × List String :=
  match parts path with
  | "." :: rest => (".", rest)
  | first :: rest => if isAbsolute path then ("/", rest) else ("", first :: rest)
  | [] => ("", [])

/-- The parts that name something. -/
def named (parts : List String) : List String :=
  parts.filter fun part => !isIdle part

/-- The two paths differ in idle parts at most. -/
def same (a b : String) : Bool :=
  (split a).1 = (split b).1 && named (split a).2 = named (split b).2

/-- The path of a lead and parts. -/
def build (lead : String) (body : List String) : String :=
  let text := "/".intercalate body
  if body.isEmpty then lead
  else if lead = "." then "./" ++ text
  else lead ++ text

/-- The parts without idle ones at their end. -/
def trimEnd (body : List String) : List String :=
  (body.reverse.dropWhile isIdle).reverse

/-- The directory that holds what a path leads to, as it is written; nothing for the root and for the
    empty path. -/
def parent? (path : String) : Option String :=
  let (lead, body) := split path
  match trimEnd body with
  | [] => if lead = "." then some "" else none
  | body => some (build lead (trimEnd body.dropLast))

/-- The path itself, then the directories above it. -/
def ancestors (path : String) : List String :=
  go (path.length + 2) path
where
  /-- The first `limit` of them. -/
  go : Nat → String → List String
    | 0, _ => []
    | limit + 1, path => path :: match parent? path with
      | some dir => go limit dir
      | none => []

/-- The name at the end of a path; paths that end in `..` have none. -/
def fileName? (path : String) : Option String :=
  match (trimEnd (split path).2).getLast? with
  | some name => if name = ".." then none else some name
  | none => none

/-- The text after the last dot of a name that does not start with it. -/
def extension? (name : String) : Option String :=
  let tail := name.toList.reverse.takeWhile (· ≠ '.')
  if tail.length + 1 < name.length then some (String.ofList tail.reverse) else none

/-- A path as it is seen from a directory; one from the root stands for itself. -/
def join (dir path : String) : String :=
  if isAbsolute path then path
  else if dir.isEmpty || dir.toList.getLast? = some '/' then dir ++ path else dir ++ "/" ++ path

/-- The path that leads from a directory down through names. -/
def descend (dir : String) (names : List String) : String :=
  names.foldl join dir

/-- The path, or `.` if it is empty. -/
def orHere (path : String) : String :=
  if path.isEmpty then "." else path

/-- The last parts of the path, idle ones aside, are those of `tail`. -/
def endsWith (path : String) (tail : List String) : Bool :=
  let names := named (parts path)
  names.drop (names.length - tail.length) = tail

/-- The names that lead from a directory to a path that goes through it. -/
def namesFrom? (dir path : String) : Option (List String) :=
  let above := named (split dir).2
  let names := named (split path).2
  if (split dir).1 = (split path).1 && above.isPrefixOf names then some (names.drop above.length)
  else none

/-- The parts after those that name the directory `dir`. -/
def stripNames? : (dir body : List String) → Option (List String)
  | [], body => some body
  | name :: dir, body =>
    match body.dropWhile isIdle with
    | part :: rest => if part = name then stripNames? dir rest else none
    | [] => none

/-- A path from the root as a path below the directory with these names. -/
def below? (dir : List String) (path : String) : Option String := do
  guard (isAbsolute path)
  let rest ← stripNames? dir ((parts path).drop 1)
  return build "" (trimEnd (rest.dropWhile isIdle))

end WorkflowAudit.Path
