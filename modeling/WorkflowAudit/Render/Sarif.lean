import WorkflowAudit.Catalog
import WorkflowAudit.JsonValue.Printer

/-!
Findings in the interchange format for static analysis results.
-/

namespace WorkflowAudit.Render

/-- The version of the program. -/
def version : String := "0.4.0"

/-- Where the program is found. -/
def homepage : String := "https://github.com/runwarden/runwarden"

/-- The identifier of a rule among those of other tools. -/
def qualified (rule : String) : JsonValue :=
  .string ("runwarden/" ++ rule)

/-- A text that is shown. -/
def shownText (text : String) : JsonValue :=
  .object [("text", .string text)]

/-- What a rule checks; its name for a rule that is not known. -/
def helpOf (rule : String) : String :=
  match catalog.find? (·.ident = rule) with
  | some r => r.description
  | none => rule

/-- A rule that has findings. -/
def ruleEntry (rule : String) : JsonValue :=
  .object [("help", shownText (helpOf rule)), ("id", qualified rule), ("name", .string rule),
    ("properties", .object [("tags", .array [.string "security"])])]

/-- The place of a finding. One that is about no particular place has only a file. -/
def location (f : Finding) : JsonValue :=
  let file := ("artifactLocation", JsonValue.object [("uri", .string f.shownPath)])
  let region := ("region", JsonValue.object [("sourceLanguage", .string "yaml"),
    ("startColumn", .ofNat f.position.column), ("startLine", .ofNat f.position.line)])
  .object [("physicalLocation", .object (if f.position.line = 0 then [file] else [file, region]))]

/-- A finding as a result. -/
def result (f : Finding) : JsonValue :=
  .object [("kind", .string "fail"), ("level", .string "warning"),
    ("locations", .array [location f]), ("message", shownText f.message),
    ("ruleId", qualified f.rule)]

/-- The tool that made the findings, with the rules that have some, in order of first finding. -/
def tool (findings : List Finding) : JsonValue :=
  let rules := (findings.map (·.rule)).eraseDups
  .object [("driver", .object [("downloadUri", .string homepage),
    ("informationUri", .string homepage), ("name", .string "runwarden"),
    ("rules", .array (rules.map ruleEntry)), ("semanticVersion", .string version),
    ("version", .string version)])]

/-- Findings in the interchange format. -/
def sarif (findings : List Finding) : JsonValue :=
  let run := JsonValue.object [
    ("invocations", .array [.object [("executionSuccessful", .bool true)]]),
    ("results", .array (findings.map result)), ("tool", tool findings)]
  .object [
    ("$schema", .string
      "https://docs.oasis-open.org/sarif/sarif/v2.1.0/os/schemas/sarif-schema-2.1.0.json"),
    ("runs", .array [run]), ("version", .string "2.1.0")]

end WorkflowAudit.Render
