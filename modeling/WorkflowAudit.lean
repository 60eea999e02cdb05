import WorkflowAudit.ActionIndex
import WorkflowAudit.Catalog
import WorkflowAudit.Cli.Command
import WorkflowAudit.Cli.Help
import WorkflowAudit.Cli.Option
import WorkflowAudit.Cli.Run
import WorkflowAudit.Collect
import WorkflowAudit.Config
import WorkflowAudit.Disk.Write
import WorkflowAudit.Dispatch
import WorkflowAudit.Expr.Basic
import WorkflowAudit.Expr.Fragment
import WorkflowAudit.Expr.Lexeme
import WorkflowAudit.Expr.Parser
import WorkflowAudit.FileTree
import WorkflowAudit.Finding
import WorkflowAudit.Glob
import WorkflowAudit.IgnoreRules
import WorkflowAudit.JsonValue.Basic
import WorkflowAudit.JsonValue.Decode
import WorkflowAudit.JsonValue.Printer
import WorkflowAudit.JsonValue.Reader
import WorkflowAudit.Main
import WorkflowAudit.Number.Binary64
import WorkflowAudit.Number.Shortest
import WorkflowAudit.Path
import WorkflowAudit.Pattern.Basic
import WorkflowAudit.Pattern.CharSet
import WorkflowAudit.Pattern.Reader
import WorkflowAudit.Probe
import WorkflowAudit.Project
import WorkflowAudit.Proofs.Disk.Files
import WorkflowAudit.Proofs.Expr.Addresses
import WorkflowAudit.Proofs.Expr.Closing
import WorkflowAudit.Proofs.Expr.Completeness
import WorkflowAudit.Proofs.Expr.Fragments
import WorkflowAudit.Proofs.Expr.Grammar
import WorkflowAudit.Proofs.Expr.LetterCase
import WorkflowAudit.Proofs.Expr.LongestWord
import WorkflowAudit.Proofs.Expr.Origins
import WorkflowAudit.Proofs.Expr.Places
import WorkflowAudit.Proofs.Expr.Reading
import WorkflowAudit.Proofs.Expr.Rendering
import WorkflowAudit.Proofs.Expr.Scanning
import WorkflowAudit.Proofs.Expr.SourceOrder
import WorkflowAudit.Proofs.Expr.Word
import WorkflowAudit.Proofs.Finding.Conditions
import WorkflowAudit.Proofs.Finding.Flagged
import WorkflowAudit.Proofs.Finding.Placed
import WorkflowAudit.Proofs.Finding.Pointing
import WorkflowAudit.Proofs.Finding.Reports
import WorkflowAudit.Proofs.Lists.Basic
import WorkflowAudit.Proofs.Number.Nearest
import WorkflowAudit.Proofs.Number.Numeral
import WorkflowAudit.Proofs.Owner.Requests
import WorkflowAudit.Proofs.Owner.Uses
import WorkflowAudit.Proofs.Path.Joins
import WorkflowAudit.Proofs.Path.Levels
import WorkflowAudit.Proofs.Path.Names
import WorkflowAudit.Proofs.Path.Places
import WorkflowAudit.Proofs.Pattern.Escaping
import WorkflowAudit.Proofs.Pattern.Matching
import WorkflowAudit.Proofs.Pattern.Openings
import WorkflowAudit.Proofs.Project.LocalActions
import WorkflowAudit.Proofs.Project.Root
import WorkflowAudit.Proofs.Project.Walks
import WorkflowAudit.Proofs.Remote.Actions
import WorkflowAudit.Proofs.Remote.Confinement
import WorkflowAudit.Proofs.Remote.Copying
import WorkflowAudit.Proofs.Remote.Isolation
import WorkflowAudit.Proofs.Remote.Pacing
import WorkflowAudit.Proofs.Remote.Parts
import WorkflowAudit.Proofs.Remote.Rounds
import WorkflowAudit.Proofs.Remote.Snapshot
import WorkflowAudit.Proofs.Render.Lines
import WorkflowAudit.Proofs.Runner.Conflicts
import WorkflowAudit.Proofs.Scan.OneByOne
import WorkflowAudit.Proofs.Scan.Order
import WorkflowAudit.Proofs.Scan.Roots
import WorkflowAudit.Proofs.Scan.Runs
import WorkflowAudit.Proofs.Script.Lines
import WorkflowAudit.Proofs.Settings.Labels
import WorkflowAudit.Proofs.Settings.Suppression
import WorkflowAudit.Proofs.Settings.Triggers
import WorkflowAudit.Proofs.Table.Writing
import WorkflowAudit.Proofs.Taint.ContextPath
import WorkflowAudit.Proofs.Taint.Declared
import WorkflowAudit.Proofs.Taint.Filtering
import WorkflowAudit.Proofs.Taint.Matching
import WorkflowAudit.Proofs.Taint.PrefixTree
import WorkflowAudit.Proofs.Taint.References
import WorkflowAudit.Proofs.Text.Parts
import WorkflowAudit.Proofs.Walk.Dialogs
import WorkflowAudit.Proofs.Walk.Independence
import WorkflowAudit.Proofs.Workflow.Scalars
import WorkflowAudit.Proofs.Workflow.Shape
import WorkflowAudit.Proofs.Yaml.Aliases
import WorkflowAudit.Proofs.Yaml.Building
import WorkflowAudit.Proofs.Yaml.Cursor
import WorkflowAudit.Proofs.Yaml.Ink
import WorkflowAudit.Proofs.Yaml.Mappings
import WorkflowAudit.Proofs.Yaml.Merging
import WorkflowAudit.Proofs.Yaml.Parts
import WorkflowAudit.Proofs.Yaml.Placement
import WorkflowAudit.Proofs.Yaml.Quoted.Decoding
import WorkflowAudit.Proofs.Yaml.Quoted.Leftovers
import WorkflowAudit.Proofs.Yaml.Quoted.Positions
import WorkflowAudit.Proofs.Yaml.Quoted.Segments
import WorkflowAudit.Proofs.Yaml.Runs
import WorkflowAudit.Proofs.Yaml.Scalars
import WorkflowAudit.Proofs.Yaml.Spans
import WorkflowAudit.Remote.Api
import WorkflowAudit.Remote.Crawl
import WorkflowAudit.Remote.Host
import WorkflowAudit.Render.Compact
import WorkflowAudit.Render.Plain
import WorkflowAudit.Render.Sarif
import WorkflowAudit.Render.Styled
import WorkflowAudit.Rule.ActionUse
import WorkflowAudit.Rule.Artifact
import WorkflowAudit.Rule.Basic
import WorkflowAudit.Rule.BotCheck
import WorkflowAudit.Rule.Checkout
import WorkflowAudit.Rule.CommandFile
import WorkflowAudit.Rule.Injection
import WorkflowAudit.Rule.Owner
import WorkflowAudit.Rule.Password
import WorkflowAudit.Rule.RunnerLabel
import WorkflowAudit.Rule.Survey
import WorkflowAudit.Scan
import WorkflowAudit.Script
import WorkflowAudit.Settings
import WorkflowAudit.Table
import WorkflowAudit.Taint
import WorkflowAudit.Text.Ascii
import WorkflowAudit.Text.Blank
import WorkflowAudit.Text.Bytes
import WorkflowAudit.Text.CaseFold
import WorkflowAudit.Text.Position
import WorkflowAudit.Text.Width
import WorkflowAudit.Text.WordChar
import WorkflowAudit.TriggerFilter
import WorkflowAudit.Untrusted
import WorkflowAudit.Workflow
import WorkflowAudit.Yaml.Alignment
import WorkflowAudit.Yaml.CharClass
import WorkflowAudit.Yaml.Data.Cursor
import WorkflowAudit.Yaml.Data.Decode
import WorkflowAudit.Yaml.Data.Scalar
import WorkflowAudit.Yaml.Data.Token
import WorkflowAudit.Yaml.Data.Value
import WorkflowAudit.Yaml.Layout
import WorkflowAudit.Yaml.Node
import WorkflowAudit.Yaml.Outline
import WorkflowAudit.Yaml.Outline.Block
import WorkflowAudit.Yaml.Outline.Document
import WorkflowAudit.Yaml.Outline.Flow
import WorkflowAudit.Yaml.Outline.Properties
import WorkflowAudit.Yaml.Outline.Scalar
