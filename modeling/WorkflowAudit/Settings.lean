import WorkflowAudit.Pattern.Reader
import WorkflowAudit.Text.Split
import WorkflowAudit.TriggerFilter

/-!
What shapes a scan: the rules to run, the workflows to look at, the findings to drop and the runner
labels and action owners that are known.
-/

namespace WorkflowAudit

/-- Which rules to run. -/
inductive Selection where
  | all
  | only (names : List String)
  | except (names : List String)
  deriving DecidableEq, Repr

namespace Selection

/-- The rule is to be run. -/
def enables : Selection → String → Bool
  | .all, _ => true
  | .only names, rule => names.contains rule
  | .except names, rule => !names.contains rule

/-- The selection without the named rules. -/
def without (s : Selection) (names : List String) : Selection :=
  if names.isEmpty then s
  else match s with
    | .all => .except names
    | .only enabled => .only (enabled.filter fun name => !names.contains name)
    | .except disabled => .except (disabled ++ names)

end Selection

/-- A pattern for messages, and the text it was read from. -/
structure MessagePattern where
  text : String
  pattern : Pattern
  deriving Repr

/-- Reads a pattern for messages, without classes of Unicode properties. -/
def MessagePattern.ofText? (text : String) : Option MessagePattern :=
  (Pattern.ofText? text).map fun pattern => ⟨text, pattern⟩

namespace Pattern

/-- The character means something of its own in a pattern. -/
def isSpecial (c : Char) : Bool :=
  "\\.+*?()|[]\x7b\x7d^$#&-~".toList.contains c

/-- The pattern text for a text itself, with a backslash before all that would mean something else. -/
def escape (s : String) : String :=
  String.ofList (s.toList.flatMap fun c => if isSpecial c then ['\\', c] else [c])

/-- The pattern text for runner labels, in which a star stands for any characters but line feeds and all
    else for itself, in any case. -/
def globText (glob : String) : String :=
  "(?i)^" ++ ".*".intercalate ((Text.split '*' glob).map escape) ++ "$"

/-- Reads the pattern of runner labels. -/
def ofGlob? (glob : String) : Option Pattern :=
  ofText? (globText glob)

end Pattern

/-- The settings of a scan. -/
structure Settings where
  selection : Selection := .all
  triggers : TriggerFilter := {}
  /-- Looks for expression injection in scripts only. -/
  scriptOnly : Bool := false
  debugRules : Bool := false
  /-- Findings whose message one of these matches are dropped. -/
  ignore : List MessagePattern := []
  /-- The network can be reached. -/
  connected : Bool := false
  /-- The runner labels that are known, with stars. -/
  hostedLabels : List String := []
  knownOwners : List String := []
  deriving Repr

namespace Settings

/-- Findings with this message are dropped. -/
def ignores (s : Settings) (message : String) : Bool :=
  s.ignore.any fun p => p.pattern.isIn message

/-- The label is one of the known labels of self-hosted runners. -/
def isHostedLabel (s : Settings) (label : String) : Bool :=
  s.hostedLabels.any fun glob => (Pattern.ofGlob? glob).any (·.isIn label)

end Settings

end WorkflowAudit
