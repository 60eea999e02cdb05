import WorkflowAudit.Expr.Fragment
import WorkflowAudit.Rule.Basic

/-!
The labels that a job asks its runner to have. Each known label stands for the images that it may
select. Two labels of one job that share no image can never be met by a single runner.
-/

namespace WorkflowAudit

open Yaml (Scalar)

/-- An image that a hosted runner can start from. -/
inductive RunnerImage where
  | ubuntu2004 | ubuntu2204 | ubuntu2404
  | macos1015 | macos11
  | macos12 | macos12Large | macos12XLarge
  | macos13 | macos13Large | macos13XLarge
  | macos14 | macos14Large | macos14XLarge
  | windows2016 | windows2019 | windows2022
  deriving DecidableEq, Repr

namespace RunnerImage

/-- The images that each label may select. -/
def table : List (String × List RunnerImage) :=
  [("ubuntu-latest", [ubuntu2404]), ("ubuntu-latest-4-cores", [ubuntu2404]),
    ("ubuntu-latest-8-cores", [ubuntu2404]), ("ubuntu-latest-16-cores", [ubuntu2404]),
    ("ubuntu-24.04", [ubuntu2404]), ("ubuntu-22.04", [ubuntu2204]), ("ubuntu-20.04", [ubuntu2004]),
    ("macos-latest-xl", [macos14XLarge]), ("macos-latest-xlarge", [macos14XLarge]),
    ("macos-latest-large", [macos14Large]), ("macos-latest", [macos14]),
    ("macos-14-xl", [macos14XLarge]), ("macos-14-xlarge", [macos14XLarge]),
    ("macos-14-large", [macos14Large]), ("macos-14", [macos14]), ("macos-14.0", [macos14]),
    ("macos-13-xl", [macos13XLarge]), ("macos-13-xlarge", [macos13XLarge]),
    ("macos-13-large", [macos13Large]), ("macos-13", [macos13]), ("macos-13.0", [macos13]),
    ("macos-12-xl", [macos12XLarge]), ("macos-12-xlarge", [macos12XLarge]),
    ("macos-12-large", [macos12Large]), ("macos-12", [macos12]), ("macos-12.0", [macos12]),
    ("macos-11", [macos11]), ("macos-11.0", [macos11]), ("macos-10.15", [macos1015]),
    ("windows-latest", [windows2022]), ("windows-latest-8-cores", [windows2022]),
    ("windows-2022", [windows2022]), ("windows-2019", [windows2019]),
    ("windows-2016", [windows2016]),
    ("linux", [ubuntu2004, ubuntu2204, ubuntu2404]),
    ("macos", [macos1015, macos11, macos12, macos12Large, macos12XLarge, macos13, macos13Large,
      macos13XLarge, macos14, macos14Large, macos14XLarge]),
    ("windows", [windows2016, windows2019, windows2022])]

/-- The images that a label may select, in any case. -/
def ofLabel? (label : String) : Option (List RunnerImage) :=
  table.lookup (Text.lower label)

/-- The labels of images that are no longer there. -/
def retired : List String :=
  ["ubuntu-18.04", "ubuntu-16.04"]

/-- The two lists have no image in common. -/
def disjoint (a b : List RunnerImage) : Bool :=
  !a.any b.contains

end RunnerImage

namespace Rule

/-- A label met before in a job: the images that it selects, its text and where it stands. -/
structure SeenLabel where
  images : List RunnerImage
  label : String
  position : Position
  deriving DecidableEq, Repr

/-- The images that a label selects, and a report if it is not known. Labels of other runners select
    none. -/
def verifyLabel (settings : Settings) (label : Scalar) : List RunnerImage × List Report :=
  match RunnerImage.ofLabel? label.value with
  | some images => (images, [])
  | none =>
    if RunnerImage.retired.any (Text.sameIgnoringCase · label.value) ||
        settings.isHostedLabel label.value then ([], [])
    else ([], [⟨label.position,
      s!"label \"{label.value}\" is non default and might be a self-hosted runner."⟩])

/-- The first label met before that shares no image. -/
def conflictWith? (seen : List SeenLabel) (images : List RunnerImage) : Option SeenLabel :=
  if images.isEmpty then none else seen.find? fun s => RunnerImage.disjoint s.images images

/-- The report on a label that conflicts with one met before. -/
def conflictReport (label : Scalar) (earlier : SeenLabel) : Report :=
  ⟨label.position,
    s!"label \"{label.value}\" conflicts with label \"{earlier.label}\" defined at {earlier.position.text}. note: to run your job on each workers, use matrix"⟩

/-- Notes a label, unless it selects no image or the same images as one met before. -/
def note (seen : List SeenLabel) (label : Scalar) (images : List RunnerImage) : List SeenLabel :=
  if images.isEmpty || seen.any (·.images = images) then seen
  else seen ++ [⟨images, label.value, label.position⟩]

/-- The expression that a label consists of, white space aside. -/
def wholeExpression? (label : String) : Option Expr := do
  let body ← Text.stripLead? ['$', '\x7b', '\x7b'] (Text.trim label).toList
  let (e, consumed) ← (Expr.parseFragment (String.ofList body)).toOption
  if consumed = Text.byteSize body then some e else none

/-- The values that a label can take when it names a property of the job's matrix. -/
def labelCandidates (label : Scalar) (matrix : Option Matrix) : List Scalar :=
  match matrix, wholeExpression? label.value with
  | some m, some (.property _ (.var _ name) property) =>
    if Text.sameIgnoringCase name "matrix" then m.candidates property else []
  | _, _ => []

/-- Looks at labels that are alternatives: each is held against those met before and never against the
    others. -/
def checkAlternatives (settings : Settings) (seen : List SeenLabel) (labels : List Scalar) :
    List SeenLabel × List Report :=
  let verified := labels.map fun label => (label, verifyLabel settings label)
  let judged := verified.map fun (label, images, _) => (label, images, conflictWith? seen images)
  let reports := verified.flatMap (fun (_, _, reports) => reports) ++
    judged.filterMap fun (label, _, conflict) => conflict.map (conflictReport label)
  let kept := judged.filter fun (_, _, conflict) => conflict.isNone
  (kept.foldl (fun seen (label, images, _) => note seen label images) seen, reports)

/-- Looks at one label of a job. -/
def checkLabel (settings : Settings) (matrix : Option Matrix) (seen : List SeenLabel)
    (label : Scalar) : List SeenLabel × List Report :=
  if !label.hasExpression then checkAlternatives settings seen [label]
  else
    let candidates := labelCandidates label matrix
    if candidates.isEmpty then
      (seen, [⟨label.position,
        s!"Expression in a label: \"{label.value}\". It might be a self-hosted runner."⟩])
    else checkAlternatives settings seen candidates

/-- Looks at labels one after the other. -/
def checkLabels (settings : Settings) (matrix : Option Matrix) (seen : List SeenLabel) :
    List Scalar → List SeenLabel × List Report
  | [] => (seen, [])
  | label :: rest =>
    let (seen, reports) := checkLabel settings matrix seen label
    let (seen, others) := checkLabels settings matrix seen rest
    (seen, reports ++ others)

/-- The labels met and the reports after one more job. Labels that an earlier job has left behind are
    forgotten before those of the job are looked at, and these are forgotten after it. A single label has
    nothing to conflict with, and one that is partly an expression stands for nothing known. -/
def checkJob (settings : Settings) (seen : List SeenLabel) (j : Job) : List SeenLabel × List Report :=
  match j.runsOn with
  | [] => (seen, [])
  | [label] =>
    if (wholeExpression? label.value).isSome then ([], (checkLabels settings j.matrix [] [label]).2)
    else if label.hasExpression then (seen, [])
    else (seen, (verifyLabel settings label).2)
  | labels => ([], (checkLabels settings j.matrix [] labels).2)

/-- Reports runner labels that are not known or cannot go together. -/
def runnerLabel : Rule where
  ident := "runner-label"
  description := "Checks for GitHub-hosted and preset self-hosted runner labels in \"runs-on:\""
  honoursFilter := false
  State := List SeenLabel
  start := []
  visit around seen v :=
    match v with
    | .enterJob j => checkJob around.settings seen j
    | _ => (seen, [])

end Rule

end WorkflowAudit
