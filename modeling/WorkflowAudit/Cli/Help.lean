import WorkflowAudit.Cli.Command

/-!
Texts about the commands. The short text has an option in a line; the long one has it in paragraphs, with
the values to choose from.
-/

namespace WorkflowAudit.Cli

/-- An operand or option in a text. -/
structure HelpEntry where
  /-- How it is written. -/
  usage : String
  summary : String
  details : List String := []
  choices : List (String × String) := []
  /-- What is said in brackets. -/
  remarks : List String := []

/-- A text. -/
structure HelpPage where
  about : String
  usage : String
  commands : List (String × String) := []
  operands : List HelpEntry := []
  options : List OptionSpec := []

/-- Spaces. -/
def blanks (n : Nat) : String :=
  String.ofList (List.replicate n ' ')

/-- The text with spaces after it up to a width. -/
def padded (width : Nat) (text : String) : String :=
  text ++ blanks (width - text.length)

/-- The width of the widest text. -/
def widest (texts : List String) : Nat :=
  (texts.map String.length).foldl max 0

/-- The entry of an option. -/
def HelpEntry.ofOption (env : Environment) (spec : OptionSpec) : HelpEntry :=
  let letter := match spec.letter with
    | some c => "-" ++ String.singleton c ++ ", "
    | none => "    "
  let tail := match spec.value with
    | some value => " <" ++ value ++ ">"
    -- A flag that can be given again says so.
    | none => if spec.repeats then "..." else ""
  let envRemark := spec.envName.map fun name =>
    "[env: " ++ name ++ "=" ++ (env.lookup name).getD "" ++ "]"
  let fallback := spec.fallback.map fun value => "[default: " ++ value ++ "]"
  { usage := letter ++ "--" ++ spec.name ++ tail
    summary := spec.summary
    details := spec.details
    choices := spec.choices
    remarks := envRemark.toList ++ fallback.toList }

/-- An entry in a line. -/
def HelpEntry.short (width : Nat) (e : HelpEntry) : String :=
  let choices := if e.choices.isEmpty then []
    else ["[possible values: " ++ ", ".intercalate (e.choices.map (·.1)) ++ "]"]
  "  " ++ padded width e.usage ++ "  " ++ " ".intercalate (e.summary :: e.remarks ++ choices)

/-- An entry in paragraphs. -/
def HelpEntry.long (e : HelpEntry) : String :=
  let newLine := "\n" ++ blanks 10
  let text := if e.details.isEmpty then [e.summary] else e.details
  let remarks := if e.remarks.isEmpty then [] else [newLine.intercalate e.remarks]
  let width := widest (e.choices.map (·.1))
  let choices := if e.choices.isEmpty then ""
    else "\n" ++ newLine ++ newLine.intercalate ("Possible values:" :: e.choices.map fun (name, meaning) =>
      "- " ++ padded (width + 2) (name ++ ":") ++ meaning)
  "  " ++ e.usage ++ newLine ++ (newLine ++ newLine).intercalate (text ++ remarks) ++ choices

/-- A heading with entries under it; nothing without entries. -/
def helpSection (long : Bool) (heading : String) (entries : List HelpEntry) : List String :=
  if entries.isEmpty then []
  else
    let body :=
      if long then "\n\n".intercalate (entries.map HelpEntry.long)
      else "\n".intercalate (entries.map (HelpEntry.short (widest (entries.map (·.usage)))))
    [heading ++ ":\n" ++ body]

/-- The text of a page. -/
def HelpPage.text (long : Bool) (env : Environment) (page : HelpPage) : String :=
  let commands := page.commands.map fun (name, about) => { usage := name, summary := about }
  let parts := [page.about, "Usage: runwarden " ++ page.usage] ++
    helpSection false "Commands" commands ++
    helpSection long "Arguments" page.operands ++
    helpSection long "Options" (page.options.map (.ofOption env))
  "\n\n".intercalate parts ++ "\n"

/-- What a scan does. -/
def scanAbout : String := "Scan workflow files for security issues"

/-- What a download does. -/
def downloadAbout : String := "Download the workflows of every repository of an organization"

/-- What asking for help does. -/
def helpAbout : String := "Print this message or the help of the given subcommand(s)"

/-- The page about a command or the program. -/
def helpPage : Option String → HelpPage
  | some "scan" => {
      about := scanAbout
      usage := "scan [OPTIONS] [INPUTS]..."
      operands := [{
        usage := "[INPUTS]..."
        summary :=
          "The workflow files or directories to scan. Defaults to the current directory" }]
      options := scanOptions }
  | some "download" => {
      about := downloadAbout
      usage := "download [OPTIONS] --org <ORG>"
      options := downloadOptions }
  | some "help" => {
      about := helpAbout
      usage := "help [COMMAND]..."
      operands := [{ usage := "[COMMAND]...", summary := "Print help for the subcommand(s)" }] }
  | _ => {
      about := "Security rule engine for GitHub Actions workflows"
      usage := "[OPTIONS] <COMMAND>"
      commands := [("scan", scanAbout), ("download", downloadAbout), ("help", helpAbout)]
      options := programOptions }

end WorkflowAudit.Cli
