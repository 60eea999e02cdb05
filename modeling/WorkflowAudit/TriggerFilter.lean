import WorkflowAudit.Text.Blank
import WorkflowAudit.Text.Split

/-!
Which workflows to look at, by the events that start them.
-/

namespace WorkflowAudit

/-- The events through which an outside party can feed data into a workflow. -/
def externalTriggers : List String :=
  ["workflow_run", "pull_request_target", "issue_comment", "issues", "discussion_comment",
    "discussion", "fork", "watch", "pull_request_review", "pull_request_review_comment"]

/-- All events that can start a workflow. -/
def allTriggers : List String :=
  ["branch_protection_rule", "check_run", "check_suite", "create", "delete", "deployment",
    "deployment_status", "discussion", "discussion_comment", "fork", "gollum", "issue_comment",
    "issues", "label", "merge_group", "milestone", "page_build", "project", "project_card",
    "project_column", "public", "pull_request", "pull_request_review",
    "pull_request_review_comment", "pull_request_target", "push", "registry_package", "release",
    "repository_dispatch", "schedule", "status", "watch", "workflow_call", "workflow_dispatch",
    "workflow_run"]

/-- The events that let a workflow through; without any, every workflow passes. -/
structure TriggerFilter where
  events : List String := []
  deriving DecidableEq, Repr

namespace TriggerFilter

/-- Reads a filter: `external`, `allnopr` for all events but `pull_request`, or events between
    commas. -/
def ofText (text : String) : TriggerFilter :=
  match Text.trim text with
  | "external" => ⟨externalTriggers⟩
  | "allnopr" => ⟨allTriggers.filter (· ≠ "pull_request")⟩
  | list => ⟨((Text.split ',' list).map Text.trim).filter (· ≠ "")⟩

/-- The filter names no event. -/
def isEmpty (f : TriggerFilter) : Bool :=
  f.events.isEmpty

/-- The filter names the event. -/
def contains (f : TriggerFilter) (event : String) : Bool :=
  f.events.contains event

/-- A workflow that these events start passes the filter. -/
def passes (f : TriggerFilter) (events : List String) : Bool :=
  f.isEmpty || events.any f.contains

end TriggerFilter

end WorkflowAudit
