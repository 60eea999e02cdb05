import WorkflowAudit.Cli.Option
import WorkflowAudit.Remote.Host
import WorkflowAudit.Settings
import WorkflowAudit.Text.Split

/-!
The commands of the program and what their words and the environment make of them.
-/

namespace WorkflowAudit.Cli

/-- The variables of the environment. -/
abbrev Environment := List (String × String)

/-- When to use colours. -/
inductive ColourMode where
  | auto | always | never
  deriving DecidableEq, Repr

/-- The mode of a name. -/
def ColourMode.ofName? : String → Option ColourMode
  | "auto" => some .auto
  | "always" => some .always
  | "never" => some .never
  | _ => none

/-- How findings are written. -/
inductive Format where
  | plain | oneLine | json | sarif
  deriving DecidableEq, Repr

/-- The format of a name. -/
def Format.ofName? : String → Option Format
  | "plain" => some .plain
  | "oneline" => some .oneLine
  | "json" => some .json
  | "sarif" => some .sarif
  | _ => none

/-- A scan. -/
structure ScanCommand where
  listRules : Bool
  settings : Settings
  config : Option String
  noConfig : Bool
  offline : Bool
  format : Format
  inputs : List String

/-- A download. -/
structure DownloadCommand where
  org : String
  repo : Option String
  token : Option AccessToken
  host : Host
  defaultBranchOnly : Bool
  maxBranches : Option Nat
  path : String
  outputDir : String

/-- A command. -/
inductive Command where
  | scan (c : ScanCommand)
  | download (c : DownloadCommand)

/-- What a command line asks for. -/
inductive Request where
  | run (colours : Option ColourMode) (command : Command)
  /-- A text, long or not, about a command, or about the program when no command is named. -/
  | help (long : Bool) (command : Option String)
  | version

/-! ### Options -/

/-- Says more about what is done. -/
def verboseOption : OptionSpec where
  name := "verbose"
  letter := some 'v'
  repeats := true
  summary := "Increase logging verbosity"

/-- Says less about what is done. -/
def quietOption : OptionSpec where
  name := "quiet"
  letter := some 'q'
  repeats := true
  summary := "Decrease logging verbosity"

/-- Says when to use colours. -/
def colourOption : OptionSpec where
  name := "color"
  value := some "MODE"
  accepts := fun v => (ColourMode.ofName? v).isSome
  summary := "Control the use of color in output"
  choices :=
    [("auto", "Use color output if the output supports it"),
      ("always", "Force color output, even if the output isn't a terminal"),
      ("never", "Disable color output, even if the output is a compatible terminal")]

/-- Asks for help. -/
def helpOption : OptionSpec where
  name := "help"
  letter := some 'h'
  summary := "Print help (see more with '--help')"
  details := ["Print help (see a summary with '-h')"]

/-- Asks for the version. -/
def versionOption : OptionSpec where
  name := "version"
  letter := some 'V'
  summary := "Print version"

/-- Options before the command. -/
def programOptions : List OptionSpec :=
  [verboseOption, quietOption, colourOption, helpOption, versionOption]

/-- Options of a scan. -/
def scanOptions : List OptionSpec :=
  [{ name := "list-rules", summary := "List every rule with its description, then exit" },
    verboseOption,
    { name := "filter-triggers", value := some "TRIGGERS",
      summary := "Only run trigger-sensitive rules on workflows with one of these triggers",
      details :=
        ["Only run trigger-sensitive rules on workflows with one of these triggers.",
          "Either a comma-separated list of events, `external` for the triggers an outside party " ++
            "can fire, or `allnopr` for every trigger but `pull_request`."] },
    quietOption,
    colourOption,
    { name := "filter-run",
      summary := "Only look for expression injection in `run:` scripts" },
    { name := "ignore", value := some "REGEX", repeats := true,
      accepts := fun v => (Pattern.ofText? v).isSome,
      summary := "Drop findings whose message matches this regex. May be repeated" },
    { name := "enable-rules", value := some "RULES", repeats := true,
      summary := "Only run these rules (comma-separated)" },
    { name := "disable-rules", value := some "RULES", repeats := true,
      summary := "Run every rule except these (comma-separated)" },
    { name := "debug-rules", summary := "Also run the rules meant for manual triage" },
    { name := "config", letter := some 'c', value := some "CONFIG",
      summary := "The configuration file to load. By default, any config will be discovered " ++
        "relative to $CWD",
      envName := some "RUNWARDEN_CONFIG" },
    { name := "no-config", summary := "Disable all configuration loading" },
    { name := "offline", letter := some 'o',
      summary := "Perform only offline operations",
      details :=
        ["Perform only offline operations.",
          "This disables the repo-jacking rule, which needs to reach github.com."],
      envName := some "RUNWARDEN_OFFLINE" },
    { name := "format", value := some "FORMAT",
      accepts := fun v => (Format.ofName? v).isSome,
      summary := "The output format to emit. By default, cargo-style diagnostics will be emitted",
      choices :=
        [("plain", "cargo-style output"),
          ("oneline", "One `path:line:column: message [rule]` line per finding"),
          ("json", "A JSON array of findings"),
          ("sarif", "SARIF-formatted output")],
      fallback := some "plain" },
    { name := "oneline", summary := "Shorthand for `--format oneline`" },
    helpOption]

/-- A count: decimal digits, after a plus sign or not, of a number that fits in 64 bits. -/
def count? (text : String) : Option Nat :=
  let digits := match text.toList with
    | '+' :: rest => rest
    | cs => cs
  if digits.isEmpty || !digits.all Char.isDigit then none
  else
    let n := Text.decimalValue digits
    if n < Nat.pow 2 64 then some n else none

/-- Options of a download. -/
def downloadOptions : List OptionSpec :=
  [{ name := "org", value := some "ORG",
      summary := "The organization (or user) whose repositories to download" },
    verboseOption,
    quietOption,
    { name := "repo", value := some "REPO", summary := "Only download this repository" },
    colourOption,
    { name := "gh-token", value := some "GH_TOKEN",
      accepts := fun v => (AccessToken.ofText v).toOption.isSome,
      summary := "The GitHub API token to use",
      envName := some "GH_TOKEN" },
    { name := "gh-hostname", value := some "GH_HOSTNAME",
      accepts := fun v => (Host.ofName v).toOption.isSome,
      summary := "The GitHub Server Hostname. Defaults to github.com",
      envName := some "GH_HOST",
      fallback := some "github.com" },
    { name := "default-branch",
      summary := "Only download the default branch of each repository" },
    { name := "max-branches", value := some "N",
      accepts := fun v => (count? v).isSome,
      summary := "Download at most this many branches of each repository" },
    { name := "path", value := some "PATH",
      summary := "The file or directory to download from each branch",
      fallback := some ".github/workflows" },
    { name := "output-dir", value := some "OUTPUT_DIR",
      summary := "Where to write the downloaded files",
      fallback := some "runwarden-output" },
    helpOption]

/-! ### Commands -/

/-- The value of an option, or else of a variable. -/
def valueOr (words : Words) (env : Environment) (option envName : String) : Option String :=
  (words.value? option).or (env.lookup envName)

/-- A switch that is given, or turned on or off by a variable. -/
def switch? (words : Words) (env : Environment) (option envName : String) : Option Bool :=
  if words.has option then some true
  else match env.lookup envName with
    | none => some false
    | some "true" => some true
    | some "false" => some false
    | some _ => none

/-- The items of values between commas. -/
def items (values : List String) : List String :=
  values.flatMap (Text.split ',')

/-- The two options are not both given. -/
def notBoth (words : Words) (a b : String) : Bool :=
  !(words.has a && words.has b)

/-- The words of a scan. -/
def scanCommand? (words : Words) (env : Environment) : Option ScanCommand := do
  let config := valueOr words env "config" "RUNWARDEN_CONFIG"
  let offline ← switch? words env "offline" "RUNWARDEN_OFFLINE"
  guard (notBoth words "enable-rules" "disable-rules" && notBoth words "oneline" "format")
  guard (notBoth words "verbose" "quiet")
  guard (!(config.isSome && words.has "no-config"))
  let enabled := items (words.values "enable-rules")
  let disabled := items (words.values "disable-rules")
  let settings : Settings := {
    selection := if !enabled.isEmpty then .only enabled
      else if !disabled.isEmpty then .except disabled else .all
    triggers := ((words.value? "filter-triggers").map TriggerFilter.ofText).getD {}
    scriptOnly := words.has "filter-run"
    debugRules := words.has "debug-rules"
    ignore := ← (words.values "ignore").mapM MessagePattern.ofText? }
  return {
    listRules := words.has "list-rules"
    settings := settings
    config := config
    noConfig := words.has "no-config"
    offline := offline
    format := if words.has "oneline" then .oneLine
      else ((words.value? "format").bind Format.ofName?).getD .plain
    inputs := words.operands }

/-- The words of a download, which takes no operands. -/
def downloadCommand? (words : Words) (env : Environment) : Option DownloadCommand := do
  guard words.operands.isEmpty
  guard (notBoth words "verbose" "quiet" && notBoth words "default-branch" "max-branches")
  let token ← match valueOr words env "gh-token" "GH_TOKEN" with
    | some text => (AccessToken.ofText text).toOption.map some
    | none => some none
  return {
    org := ← words.value? "org"
    repo := words.value? "repo"
    token := token
    host := ← (Host.ofName ((valueOr words env "gh-hostname" "GH_HOST").getD "github.com")).toOption
    defaultBranchOnly := words.has "default-branch"
    maxBranches := (words.value? "max-branches").bind count?
    path := (words.value? "path").getD ".github/workflows"
    outputDir := (words.value? "output-dir").getD "runwarden-output" }

/-- The mode that the words of a command or the words before it ask for. -/
def colourMode? (before words : Words) : Option ColourMode :=
  ((words.value? "color").or (before.value? "color")).bind ColourMode.ofName?

/-- Reads the words after the name of a command. -/
def commandRequest? (name : String) (before : Words) (env : Environment) (args : List String) :
    Option Request := do
  let specs ← match name with
    | "scan" => some scanOptions
    | "download" => some downloadOptions
    | _ => none
  match ← Words.read? specs false args with
  | .asked _ byLetter => return .help (!byLetter) (some name)
  | .done words _ =>
    let command ←
      if name = "scan" then (scanCommand? words env).map .scan
      else (downloadCommand? words env).map .download
    return .run (colourMode? before words) command

/-- The command that help is asked about. -/
def helpRequest? : List String → Option Request
  | [] => some (.help true none)
  | [name] =>
    if ["scan", "download", "help"].contains name then some (.help true (some name)) else none
  | _ => none

/-- Reads a command line; nothing if it is not understood. -/
def request? (env : Environment) (args : List String) : Option Request := do
  match ← Words.read? programOptions true args with
  | .asked "version" _ => return .version
  | .asked _ byLetter => return .help (!byLetter) none
  | .done words rest =>
    guard (notBoth words "verbose" "quiet")
    match rest with
    | "help" :: rest => helpRequest? rest
    | name :: rest => commandRequest? name words env rest
    | [] => none

end WorkflowAudit.Cli
