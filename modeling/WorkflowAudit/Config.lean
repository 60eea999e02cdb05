import WorkflowAudit.FileTree
import WorkflowAudit.Settings
import WorkflowAudit.Yaml.Data.Decode

/-!
The configuration file of a project, and how it adds to the settings of a scan.
-/

namespace WorkflowAudit

open Yaml.Data (Value)

/-- What a configuration file says. -/
structure Config where
  disabledRules : List String := []
  ignore : List String := []
  hostedLabels : List String := []
  knownOwners : List String := []
  deriving Repr, DecidableEq

/-- Why a configuration file is of no use. -/
inductive ConfigFault where
  | unreadable (cause : ReadError)
  | malformed
  | invalidPattern

namespace ConfigFault

/-- The message for a fault in what the file says. -/
def message : ConfigFault → String
  | .unreadable _ => "I/O error"
  | .malformed => "invalid configuration syntax"
  | .invalidPattern => "invalid pattern"

end ConfigFault

/-- A configuration file that is of no use. -/
structure ConfigError where
  path : String
  fault : ConfigFault

/-- The message for the file. -/
def ConfigError.message (e : ConfigError) : String :=
  "configuration error in " ++ e.path

namespace Config

/-- Reads a section with one list of texts in it. -/
def section? (name : String) (v : Value) : Option (List String) := do
  Value.field? (← v.closedFields? [name]) name [] Value.texts?

/-- Reads a configuration. -/
def ofValue? (v : Value) : Option Config := do
  let fields ← v.closedFields? ["rules", "ignore", "self-hosted-runner", "repo-jacking"]
  return {
    disabledRules := ← Value.field? fields "rules" [] (section? "disable")
    ignore := ← Value.field? fields "ignore" [] Value.texts?
    hostedLabels := ← Value.field? fields "self-hosted-runner" [] (section? "labels")
    knownOwners := ← Value.field? fields "repo-jacking" [] (section? "known-owners") }

/-- Reads the text of a configuration file. -/
def parse (text : String) : Except ConfigFault Config :=
  match (Value.ofText? text).bind ofValue? with
  | some c => .ok c
  | none => if (Text.trim text).isEmpty then .ok {} else .error .malformed

/-- Reads the configuration file at a path. -/
def load (disk : Disk) (path : String) : Except ConfigError Config :=
  match disk.read path with
  | .error cause => .error ⟨path, .unreadable cause⟩
  | .ok text => match parse text with
    | .ok c => .ok c
    | .error fault => .error ⟨path, fault⟩

/-- Where a configuration file may be, most preferred first. -/
def candidates : List String :=
  [".github/runwarden.yml", ".github/runwarden.yaml", "runwarden.yml", "runwarden.yaml"]

/-- The configuration of a directory: the first candidate that is a file, or else nothing is
    configured. -/
def discover (disk : Disk) (dir : String) : Except ConfigError Config :=
  match (candidates.map (Path.join dir)).find? disk.isFile with
  | some path => load disk path
  | none => .ok {}

/-- The configuration to use: none when it is turned off, the file that was named, or the one that is
    found in a directory. -/
def locate (disk : Disk) (named : Option String) (off : Bool) (dir : String) :
    Except ConfigError Config :=
  if off then .ok {}
  else match named with
    | some path => load disk path
    | none => discover disk dir

end Config

/-- The settings with a configuration added; nothing if one of its patterns cannot be read. -/
def Settings.withConfig? (s : Settings) (readPattern : String → Option MessagePattern) (c : Config) :
    Option Settings := do
  let ignore ← c.ignore.mapM readPattern
  return { s with
    selection := s.selection.without c.disabledRules
    ignore := s.ignore ++ ignore
    hostedLabels := s.hostedLabels ++ c.hostedLabels
    knownOwners := s.knownOwners ++ c.knownOwners }

end WorkflowAudit
