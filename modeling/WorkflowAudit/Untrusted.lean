import WorkflowAudit.Text.Ascii
import WorkflowAudit.Text.Split

/-!
The context properties that an attacker may control, as a tree of labels. Beside names, a label may be
`*`, which stands for any element of a list, or `**`, which stands for any property of an object.
-/

namespace WorkflowAudit

/-- A tree of labels, children in the order of their first declaration. A tree without children ends a
    declared path. -/
inductive Trie where
  | node (children : List (String × Trie))

namespace Trie

/-- The label for any element of a list. -/
def anyElement : String := "*"

/-- The label for any property of an object. -/
def anyProperty : String := "**"

/-- The tree without labels. -/
def empty : Trie := .node []

/-- The labels and trees below. -/
def children : Trie → List (String × Trie)
  | node cs => cs

/-- Whether the tree ends a declared path. -/
def isLeaf (t : Trie) : Bool :=
  t.children.isEmpty

/-- The tree below a label, which is compared without regard to ASCII case. -/
def child? (t : Trie) (label : String) : Option Trie :=
  (t.children.find? fun c => Text.sameIgnoringCase c.1 label).map (·.2)

/-- The children whose label is a name. -/
def named (t : Trie) : List (String × Trie) :=
  t.children.filter fun c => c.1 ≠ anyElement && c.1 ≠ anyProperty

/-- The tree with one more path, in lower case. -/
def insert : List String → Trie → Trie
  | [], t => t
  | label :: rest, t =>
    let key := Text.lower label
    if t.children.any (·.1 = key) then
      .node (t.children.map fun c => if c.1 = key then (c.1, insert rest c.2) else c)
    else .node (t.children ++ [(key, insert rest empty)])

/-- The tree of a list of dotted paths. -/
def ofPaths (paths : List String) : Trie :=
  paths.foldl (fun t path => insert (Text.split '.' path) t) empty

end Trie

/-- The paths that are known to be under an attacker's control. -/
def untrustedPaths : List String :=
  [ "github.event.issue.title"
  , "github.event.issue.body"
  , "github.event.pull_request.title"
  , "github.event.pull_request.body"
  , "github.event.pull_request.head.ref"
  , "github.event.pull_request.head.label"
  , "github.event.pull_request.head.repo.default_branch"
  , "github.event.comment.body"
  , "github.event.review.body"
  , "github.event.review_comment.body"
  , "github.event.pages.*.page_name"
  , "github.event.commits.*.message"
  , "github.event.commits.*.author.email"
  , "github.event.commits.*.author.name"
  , "github.event.head_commit.message"
  , "github.event.head_commit.author.email"
  , "github.event.head_commit.author.name"
  , "github.event.workflow_run.head_branch"
  , "github.event.workflow_run.head_commit.message"
  , "github.event.workflow_run.head_commit.author.email"
  , "github.event.workflow_run.head_commit.author.name"
  , "github.event.workflow_run.pull_requests.*.head.ref"
  , "github.event.discussion.title"
  , "github.event.discussion.body"
  , "github.head_ref"
  , "needs.**.outputs.**"
  , "steps.**.outputs.**" ]

/-- The tree of the paths that are known to be under an attacker's control. -/
def untrusted : Trie :=
  .ofPaths untrustedPaths

end WorkflowAudit
