import WorkflowAudit.Text.Position

/-!
Findings: what a rule has to say about a place in a file.
-/

namespace WorkflowAudit

/-- A message about a position. Line and column are zero when the message is about no particular place. -/
structure Report where
  position : Position
  message : String
  deriving DecidableEq, Repr

/-- A report with the rule that made it and, once it is known, the file that it is about. -/
structure Finding where
  rule : String
  message : String
  position : Position
  path : Option String := none
  deriving DecidableEq, Repr

namespace Finding

/-- The finding of a rule's report. -/
def ofReport (rule : String) (r : Report) : Finding :=
  ⟨rule, r.message, r.position, none⟩

/-- The path as it is shown; empty when it is not known. -/
def shownPath (f : Finding) : String :=
  f.path.getD ""

end Finding

end WorkflowAudit
