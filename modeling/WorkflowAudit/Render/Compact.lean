import WorkflowAudit.Finding
import WorkflowAudit.JsonValue.Printer

/-!
Findings for other programs: as JSON, and as one line each.
-/

namespace WorkflowAudit.Render

/-- A finding as a JSON object. -/
def findingJson (f : Finding) : JsonValue :=
  .object [("rule", .string f.rule), ("message", .string f.message), ("path", .string f.shownPath),
    ("line", .ofNat f.position.line), ("column", .ofNat f.position.column)]

/-- Findings as a JSON array. -/
def json (findings : List Finding) : String :=
  (JsonValue.array (findings.map findingJson)).pretty

/-- A finding as a line. One that is about no particular place has only a path. -/
def line (f : Finding) : String :=
  let place := if f.position.line = 0 then f.shownPath else f.shownPath ++ ":" ++ f.position.text
  s!"{place}: {f.message} [{f.rule}]\n"

/-- Findings as lines. -/
def oneLine (findings : List Finding) : String :=
  String.join (findings.map line)

end WorkflowAudit.Render
