import WorkflowAudit.Table
import WorkflowAudit.Text.Ascii
import WorkflowAudit.Yaml.Node

/-!
Workflows: the events that start them, their jobs, the steps of these jobs, and the scalars in them.
Keys that mean nothing here are passed over. A document is a workflow when it is a mapping with a
mapping of jobs, each job is a mapping whose steps are a list, and each step runs a script or uses an
action.
-/

namespace WorkflowAudit

open Yaml (Scalar Node Entries SyntaxError)

/-- An event that starts a workflow, and where it is named. -/
structure Trigger where
  event : String
  position : Position
  deriving DecidableEq, Repr

/-- An environment variable; it may lack a scalar value. -/
structure EnvVar where
  name : Scalar
  value : Option Scalar
  deriving Repr

/-- The combinations of properties that a job runs with. -/
structure Matrix where
  position : Position
  /-- The values of each property; a property given by an expression has that one value. -/
  rows : Table (List Scalar)
  /-- The scalar properties of each further combination. -/
  further : List (Table Scalar)
  /-- The expression that gives the whole matrix. -/
  expression : Option Scalar
  deriving Repr

/-- The account that fetches an image. -/
structure Credentials where
  username : Option Scalar
  password : Option Scalar
  deriving Repr

/-- A container that a job runs in, or a service beside it. -/
structure Container where
  position : Position
  image : Option Scalar
  credentials : Option Credentials
  deriving Repr

/-- An input of an action. -/
structure Input where
  name : Scalar
  value : Scalar
  deriving Repr

/-- What a step does: it runs a script, or it uses an action. -/
inductive StepBody where
  | run (script : Scalar) (workingDirectory shell : Option Scalar)
  | uses (action : Scalar) (inputs : Table Input) (entrypoint args : Option Scalar)
  deriving Repr

/-- A step of a job. -/
structure Step where
  position : Position
  id : Option Scalar
  name : Option Scalar
  condition : Option Scalar
  env : List EnvVar
  body : StepBody
  deriving Repr

/-- A job. -/
structure Job where
  id : Scalar
  position : Position
  name : Option Scalar
  condition : Option Scalar
  runsOn : List Scalar
  matrix : Option Matrix
  env : List EnvVar
  container : Option Container
  services : Table Container
  steps : List Step
  deriving Repr

/-- A workflow. -/
structure Workflow where
  name : Option Scalar
  triggers : List Trigger
  env : List EnvVar
  jobs : Table Job
  deriving Repr

/-- The scalar under a key. -/
def scalarAt? (entries : Entries) (key : String) : Option Scalar :=
  (entries.get? key).bind Node.scalar?

/-- The entries of a node that must be a mapping. -/
def expectMapping (what : String) (n : Node) : Except SyntaxError Entries :=
  match n with
  | .mapping _ entries => .ok entries
  | n => .error (.malformed n.position (what ++ " must be a mapping"))

/-- The scalars of a scalar or of a list. -/
def scalarsOf : Node → List Scalar
  | .scalar s => [s]
  | .sequence _ items => items.filterMap Node.scalar?
  | _ => []

/-- The variables of an environment; anything but a mapping has none. -/
def EnvVar.ofNode? (n : Option Node) : List EnvVar :=
  ((n.bind Node.entries?).getD []).map fun (name, value) => ⟨name, value.scalar?⟩

/-- The labels of the runner that a job asks for; a mapping has them under `labels`. -/
def runnerLabels : Option Node → List Scalar
  | some (.mapping _ entries) => ((Entries.get? entries "labels").map scalarsOf).getD []
  | some n => scalarsOf n
  | none => []

namespace Matrix

/-- The scalar properties of one combination. -/
def combination (entries : Entries) : Table Scalar :=
  Table.ofList (entries.filterMap fun (k, v) => v.scalar?.map (k.value, ·))

/-- A matrix with one more of its entries read. -/
def addEntry (m : Matrix) (entry : Scalar × Node) : Matrix :=
  let (key, value) := entry
  if key.value = "include" then
    { m with further := ((value.items?.getD []).filterMap Node.entries?).map combination }
  else if key.value = "exclude" then m
  else { m with rows := m.rows.insert key.value (scalarsOf value) }

/-- Reads a matrix. -/
def ofNode : Node → Matrix
  | .scalar s => ⟨s.position, [], [], some s⟩
  | .mapping p entries => entries.foldl addEntry ⟨p, [], [], none⟩
  | n => ⟨n.position, [], [], none⟩

/-- The values that a property may take, from its rows and from the further combinations. Names ignore
    ASCII case; values with expressions are left out. -/
def candidates (m : Matrix) (property : String) : List Scalar :=
  let rows := (m.rows.filter (Text.sameIgnoringCase ·.1 property)).flatMap (·.2)
  let added := m.further.flatMap fun entry =>
    (entry.filter (Text.sameIgnoringCase ·.1 property)).map (·.2)
  (rows ++ added).filter (!·.hasExpression)

end Matrix

/-- Reads a container. -/
def Container.ofNode : Node → Container
  | .scalar s => ⟨s.position, some s, none⟩
  | .mapping p entries =>
    ⟨p, scalarAt? entries "image", ((Entries.get? entries "credentials").bind Node.entries?).map fun c =>
      ⟨scalarAt? c "username", scalarAt? c "password"⟩⟩
  | n => ⟨n.position, none, none⟩

namespace Step

/-- The body of a step that uses an action: of its inputs with scalar values, `entrypoint` and `args`
    stand apart. -/
def usesBody (action : Scalar) (inputs : Entries) : StepBody :=
  let given := inputs.filterMap fun (k, v) => v.scalar?.map fun s => (k, s)
  let last (name : String) : Option Scalar := ((given.filter (·.1.value = name)).getLast?).map (·.2)
  let others := given.filter fun (k, _) => k.value ≠ "entrypoint" && k.value ≠ "args"
  .uses action (Table.ofList (others.map fun (k, v) => (k.value, ⟨k, v⟩))) (last "entrypoint") (last "args")

/-- What a step does; a script goes before an action. -/
def bodyOf? (entries : Entries) : Option StepBody :=
  match scalarAt? entries "run" with
  | some script =>
    some (.run script (scalarAt? entries "working-directory") (scalarAt? entries "shell"))
  | none =>
    (scalarAt? entries "uses").map fun action =>
      usesBody action (((entries.get? "with").bind Node.entries?).getD [])

/-- Reads a step. -/
def ofNode (n : Node) : Except SyntaxError Step :=
  match expectMapping "step" n with
  | .error e => .error e
  | .ok entries =>
    match bodyOf? entries with
    | none => .error (.malformed n.position "step must have either `run` or `uses`")
    | some body =>
      .ok ⟨n.position, scalarAt? entries "id", scalarAt? entries "name", scalarAt? entries "if",
        EnvVar.ofNode? (entries.get? "env"), body⟩

/-- Reads the steps of a list, up to the first that is none. -/
def ofNodes : List Node → Except SyntaxError (List Step)
  | [] => .ok []
  | n :: rest =>
    match ofNode n with
    | .error e => .error e
    | .ok step => (ofNodes rest).map (step :: ·)

/-- Reads the value of `steps`, which may be missing or empty. -/
def ofSteps? : Option Node → Except SyntaxError (List Step)
  | none | some (.null _) => .ok []
  | some (.sequence _ items) => ofNodes items
  | some n => .error (.malformed n.position "`steps` must be a sequence")

end Step

namespace Job

/-- Reads a job. -/
def ofNode (id : Scalar) (n : Node) : Except SyntaxError Job :=
  match expectMapping "job" n with
  | .error e => .error e
  | .ok entries =>
    match Step.ofSteps? (entries.get? "steps") with
    | .error e => .error e
    | .ok steps =>
      .ok { id
            position := n.position
            name := scalarAt? entries "name"
            condition := scalarAt? entries "if"
            runsOn := runnerLabels (entries.get? "runs-on")
            matrix := ((entries.get? "strategy").bind (·.get? "matrix")).map Matrix.ofNode
            env := EnvVar.ofNode? (entries.get? "env")
            container := (entries.get? "container").map Container.ofNode
            services := Table.ofList ((((entries.get? "services").bind Node.entries?).getD []).map
              fun (k, v) => (k.value, Container.ofNode v))
            steps }

/-- Reads the jobs of a mapping, up to the first that is none. -/
def ofEntries : Entries → Except SyntaxError (List (String × Job))
  | [] => .ok []
  | (id, n) :: rest =>
    match ofNode id n with
    | .error e => .error e
    | .ok job => (ofEntries rest).map ((id.value, job) :: ·)

end Job

namespace Workflow

/-- The events under `on`: one, a list, or the keys of a mapping. -/
def triggersOf : Option Node → List Trigger
  | some (.mapping _ entries) => entries.map fun (k, _) => ⟨k.value, k.position⟩
  | some n => (scalarsOf n).map fun s => ⟨s.value, s.position⟩
  | none => []

/-- Reads the tree of a document. -/
def ofNode (root : Node) : Except SyntaxError Workflow :=
  match expectMapping "workflow" root with
  | .error e => .error e
  | .ok entries =>
    match entries.get? "jobs" with
    | none => .error (.malformed root.position "workflow has no `jobs`")
    | some jobs =>
      match expectMapping "jobs" jobs with
      | .error e => .error e
      | .ok jobs =>
        (Job.ofEntries jobs).map fun jobs =>
          { name := scalarAt? entries "name"
            triggers := triggersOf (entries.get? "on")
            env := EnvVar.ofNode? (entries.get? "env")
            jobs := Table.ofList jobs }

/-- Reads a workflow from its text. -/
def parse (text : String) : Except SyntaxError Workflow :=
  match Node.parse text with
  | .error e => .error e
  | .ok root => ofNode root

/-- Whether an event starts the workflow. -/
def hasTrigger (w : Workflow) (event : String) : Bool :=
  w.triggers.any (·.event = event)

end Workflow

end WorkflowAudit
