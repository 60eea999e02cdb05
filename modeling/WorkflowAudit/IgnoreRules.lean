import WorkflowAudit.FileTree
import WorkflowAudit.Glob
import WorkflowAudit.Text.Blank
import WorkflowAudit.Text.Bytes

/-!
Files that list what to leave out of a walk, as `.gitignore` does: one glob a line. The last line that
matches a path decides on it.
-/

namespace WorkflowAudit

/-- A line of such a file. -/
structure IgnoreRule where
  pattern : Pattern
  /-- What matches is kept after all. -/
  keeps : Bool
  onlyDirs : Bool

/-- What rules say about a path. -/
inductive Verdict where
  | ignored
  | kept
  deriving DecidableEq, Repr

namespace IgnoreRule

/-- The text without white space at its end, unless that is an escaped space. -/
def trimLine (line : String) : String :=
  if Text.endsWith line "\\ " then line
  else String.ofList (line.toList.reverse.dropWhile Text.isWhite).reverse

/-- The marks at the start of a line: whether it keeps, whether it starts from the directory of the
    file, and the rest of the line. -/
def readMarks (line : List Char) : Bool × Bool × List Char :=
  match line with
  | '\\' :: '!' :: rest => (false, false, '!' :: rest)
  | '\\' :: '#' :: rest => (false, false, '#' :: rest)
  | '!' :: '/' :: rest => (true, true, rest)
  | '!' :: rest => (true, false, rest)
  | '/' :: rest => (false, true, rest)
  | line => (false, false, line)

/-- The mark for directories at the end of a line, and the line without it. -/
def readEnd (line : List Char) : Bool × List Char :=
  match line.reverse with
  | '/' :: '\\' :: rest => (true, rest.reverse)
  | '/' :: rest => (true, rest.reverse)
  | _ => (false, line)

/-- The glob of a line for paths from the directory of the file: without a slash in it, it matches at
    any depth, and two stars at its end match what is inside a directory and not the directory. -/
def glob (anchored : Bool) (line : String) : String :=
  let deep := Text.startsWith line "**/" || line = "**"
  let glob := if !anchored && !line.contains '/' && !deep then "**/" ++ line else line
  if Text.endsWith glob "/**" then glob ++ "/*" else glob

/-- Reads a line; comments, empty lines and malformed globs are no rules. -/
def ofLine? (line : String) : Option IgnoreRule := do
  guard (!Text.startsWith line "#")
  let line := trimLine line
  guard (!line.isEmpty)
  let (keeps, anchored, rest) := readMarks line.toList
  let (onlyDirs, rest) := readEnd rest
  let pattern ← Glob.pattern? (glob anchored (String.ofList rest))
  return ⟨pattern, keeps, onlyDirs⟩

/-- The lines of a file, up to the first that is not text. -/
def linesOf (content : ByteArray) : List String :=
  go [] [] content.toList
where
  /-- Goes on with the bytes of the line being read and the lines before it, both last first. -/
  go (line : List UInt8) (lines : List String) : List UInt8 → List String
    | [] => (close line lines).getD lines |>.reverse
    | b :: rest =>
      if b = 10 then
        match close line lines with
        | some lines => go [] lines rest
        | none => lines.reverse
      else go (b :: line) lines rest
  /-- One more line, if it is text. -/
  close (line : List UInt8) (lines : List String) : Option (List String) :=
    (String.fromUTF8? ⟨line.reverse.toArray⟩).map (· :: lines)

/-- The rules of a file. A byte order mark at its start is passed over. -/
def ofFile (content : ByteArray) : List IgnoreRule :=
  match linesOf content with
  | [] => []
  | first :: rest =>
    (String.ofList (first.toList.dropWhile (· = '\ufeff')) :: rest).filterMap ofLine?

/-- What the rules say about a path from their directory. -/
def verdict? (rules : List IgnoreRule) (path : List String) (isDir : Bool) : Option Verdict :=
  let text := Glob.bytes ("/".intercalate path)
  let decides (r : IgnoreRule) : Bool := (!r.onlyDirs || isDir) && (r.pattern.find? text).isSome
  (rules.reverse.find? decides).map fun r => if r.keeps then .kept else .ignored

end IgnoreRule

/-- The rules of a directory, from its own file and from its repository's, and the names from it to
    where the walk is. -/
structure IgnoreLevel where
  own : List IgnoreRule
  shared : List IgnoreRule
  path : List String

namespace IgnoreLevel

/-- The content of a file under a directory. -/
def contentAt (t : FileTree) (names : List String) : ByteArray :=
  match t.find? names with
  | some (.file content) => content
  | _ => .empty

/-- The level of a directory. -/
def ofDir (t : FileTree) : IgnoreLevel :=
  ⟨IgnoreRule.ofFile (contentAt t [".gitignore"]),
    IgnoreRule.ofFile (contentAt t [".git", "info", "exclude"]), []⟩

/-- The level after a step into a directory. -/
def into (name : String) (l : IgnoreLevel) : IgnoreLevel :=
  { l with path := l.path ++ [name] }

/-- The entry is left out: of the levels, innermost first, the first own file that says something about
    it decides, and then the first shared one. -/
def ignores (levels : List IgnoreLevel) (name : String) (isDir : Bool) : Bool :=
  let own := levels.findSome? fun l => IgnoreRule.verdict? l.own (l.path ++ [name]) isDir
  let shared := levels.findSome? fun l => IgnoreRule.verdict? l.shared (l.path ++ [name]) isDir
  own.or shared = some .ignored

end IgnoreLevel

namespace FileTree

mutual

/-- The tree with the entries of each directory in the order of their names. -/
def sorted : FileTree → FileTree
  | .file content => .file content
  | .dir entries => .dir ((sortedEntries entries).mergeSort fun a b => a.1 ≤ b.1)

/-- The entries with their trees sorted. -/
def sortedEntries : List (String × FileTree) → List (String × FileTree)
  | [] => []
  | (name, t) :: rest => (name, t.sorted) :: sortedEntries rest

end

mutual

/-- The files below a directory that are not left out, each by its names from there, with the rules of
    the directories above it. Directories named `.git` are left out too. -/
def walkEntries (levels : List IgnoreLevel) :
    List (String × FileTree) → List (List String × ByteArray)
  | [] => []
  | (name, t) :: rest =>
    let here :=
      if name = ".git" || IgnoreLevel.ignores levels name t.isDir then [] else t.walkFrom levels name
    here ++ walkEntries levels rest

/-- The files of an entry. -/
def walkFrom (levels : List IgnoreLevel) (name : String) : FileTree → List (List String × ByteArray)
  | .file content => [([name], content)]
  | .dir entries =>
    let level := IgnoreLevel.ofDir (.dir entries)
    (walkEntries (level :: levels.map (·.into name)) entries).map fun (names, content) =>
      (name :: names, content)

end

/-- The files of a tree that are not left out, in the order of their names. -/
def walk (t : FileTree) : List (List String × ByteArray) :=
  match t.sorted with
  | .file _ => []
  | .dir entries => walkEntries [IgnoreLevel.ofDir (.dir entries)] entries

end FileTree

end WorkflowAudit
