import WorkflowAudit.Cli.Help
import WorkflowAudit.Collect
import WorkflowAudit.Config
import WorkflowAudit.Remote.Crawl
import WorkflowAudit.Render.Compact
import WorkflowAudit.Render.Plain
import WorkflowAudit.Render.Sarif
import WorkflowAudit.Scan

/-!
Running the commands. A run is a function of what it can see, the files, the environment and the
network, and ends with an exit code and the text it writes.
-/

namespace WorkflowAudit.Cli

/-- What a run can see. -/
structure World where
  disk : Disk
  env : Environment := []
  /-- What owners' addresses answer. -/
  probe : Probe
  /-- The network can be reached at all. -/
  connected : Bool := false
  api : RepoApi

/-- A service that cannot be reached. -/
def deadApi : RepoApi where
  rateLimit _ := .error "no connection"
  repositories _ _ := .error "no connection"
  defaultBranch _ _ _ := .error "no connection"
  branches _ _ _ := .error "no connection"
  contents _ _ _ _ _ := .error "no connection"
  rawFile _ _ _ _ _ := .error "no connection"

/-- The files and the environment, without a network. -/
def World.disconnected (disk : Disk) (env : Environment) : World where
  disk := disk
  env := env
  probe := .dead
  api := deadApi

/-- How a run ends. -/
inductive Outcome where
  /-- It writes a text and has an exit code. -/
  | finished (code : Nat) (output : String)
  /-- The command line is not understood. -/
  | misused
  /-- The command fails, and this is what it did not do and why. -/
  | failed (action cause : String)

namespace Outcome

/-- The exit code: findings are 1, a command line that is not understood 2, a failure 3. -/
def code : Outcome → Nat
  | .finished code _ => code
  | .misused => 2
  | .failed .. => 3

/-- The text for the output. -/
def output : Outcome → String
  | .finished _ output => output
  | .misused | .failed .. => ""

/-- The lines about a failure. -/
def failureLines : Outcome → List String
  | .failed action cause => ["fatal: no " ++ action ++ " was performed", cause]
  | .finished .. | .misused => []

end Outcome

/-- The variable is set, be it to nothing. -/
def isSet (env : Environment) (name : String) : Bool :=
  (env.lookup name).isSome

/-- The mode to use when none is asked for. -/
def defaultMode (env : Environment) : ColourMode :=
  if isSet env "NO_COLOR" then .never
  else if isSet env "FORCE_COLOR" || isSet env "CLICOLOR_FORCE" then .always
  else .auto

/-- Output that does not go to a terminal has colours. -/
def colours (env : Environment) (mode : ColourMode) : Bool :=
  match mode with
  | .always => true
  | .never => false
  | .auto =>
    (env.lookup "NO_COLOR").getD "" = "" && (env.lookup "CLICOLOR_FORCE").getD "0" ≠ "0"

/-- The list of all rules. -/
def ruleList (coloured : Bool) : String :=
  String.join (catalog.map fun r => Render.green coloured r.ident ++ ": " ++ r.description ++ "\n")

/-- Findings in a format. -/
def rendered (disk : Disk) (coloured : Bool) (findings : List Finding) : Format → String
  | .plain => Render.plain disk coloured findings
  | .oneLine => Render.oneLine findings
  | .json => Render.json findings
  | .sarif => (Render.sarif findings).pretty

/-- The findings of a scan, or why there are none. -/
def scanFindings (w : World) (c : ScanCommand) : Except String (List Finding) := do
  let cwd := "/" ++ "/".intercalate w.disk.cwd
  let config ← (Config.locate w.disk c.config c.noConfig cwd).mapError ConfigError.message
  let settings ← match c.settings.withConfig? MessagePattern.ofText? config with
    | some settings => pure settings
    | none => throw "invalid configuration"
  let online := !c.offline && settings.wantsNetwork
  let settings := { settings with connected := online && w.connected }
  let inputs ← (w.disk.collect c.inputs).mapError ("invalid input: " ++ ·)
  let around : Surroundings := {
    settings := settings
    untrusted := untrusted
    probe := if online then some w.probe else none }
  (scan w.disk around inputs).1.mapError ScanError.message

/-- Runs a scan. -/
def runScan (w : World) (coloured : Bool) (c : ScanCommand) : Outcome :=
  if c.listRules then .finished 0 (ruleList coloured)
  else match scanFindings w c with
    | .ok findings =>
      .finished (if findings.isEmpty then 0 else 1) (rendered w.disk coloured findings c.format)
    | .error cause => .failed "scan" cause

/-- The path to download: without slashes around it, and the usual one if nothing is left. -/
def downloadPath (path : String) : String :=
  let trimmed := ((path.toList.dropWhile (· = '/')).reverse.dropWhile (· = '/')).reverse
  if trimmed.isEmpty then ".github/workflows" else String.ofList trimmed

/-- Runs a download; the disk afterwards comes with how it ends, if it does. -/
def runDownload (w : World) (c : DownloadCommand) : Option (Outcome × Disk) := do
  let header := (c.token.map AccessToken.header).getD (.ok "")
  match header with
  | .error e => return (.failed "download" e.message, w.disk)
  | .ok _ =>
    let options : CrawlOptions := {
      org := c.org
      path := downloadPath c.path
      outputDir := c.outputDir
      defaultBranchOnly := c.defaultBranchOnly
      maxBranches := c.maxBranches }
    let start : CrawlState := { disk := w.disk }
    match c.repo with
    | some repo =>
      match ← (Crawl.crawlRepo w.api options repo).run? start with
      | (.ok (), after) => return (.finished 0 "", after.disk)
      | (.error _, after) =>
        return (.failed "download" s!"couldn't download {c.org}/{repo}", after.disk)
    | none =>
      match ← (Crawl.crawlOrg w.api options).run? start with
      | (.ok _, after) => return (.finished 0 "", after.disk)
      | (.error _, after) =>
        return (.failed "download" s!"couldn't list the repositories of {c.org}", after.disk)

/-- Runs a command line; nothing if that goes on for ever. -/
def run (w : World) (args : List String) : Option Outcome :=
  match request? w.env args with
  | none => some .misused
  | some .version => some (.finished 0 ("runwarden " ++ Render.version ++ "\n"))
  | some (.help long command) => some (.finished 0 ((helpPage command).text long w.env))
  | some (.run mode command) =>
    match command with
    | .scan c => some (runScan w (colours w.env (mode.getD (defaultMode w.env))) c)
    | .download c => (runDownload w c).map (·.1)

end WorkflowAudit.Cli
