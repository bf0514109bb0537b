import UnusedImports.Agent.Call
import UnusedImports.Agent.Server
import UnusedImports.CommandLine.Command
import UnusedImports.CommandLine.Flag
import UnusedImports.CommandLine.Run
import UnusedImports.Config.Basic
import UnusedImports.Config.FileSize
import UnusedImports.Config.Headers
import UnusedImports.Config.Load
import UnusedImports.Config.Setting
import UnusedImports.Diff.LineDiff
import UnusedImports.Diff.Script
import UnusedImports.Duration
import UnusedImports.Duration.Reader
import UnusedImports.Edit
import UnusedImports.Editor.Address
import UnusedImports.Editor.CodeAction
import UnusedImports.Editor.Diagnostic
import UnusedImports.Editor.Document
import UnusedImports.Editor.Event
import UnusedImports.Editor.Position
import UnusedImports.Editor.Request
import UnusedImports.Editor.Session
import UnusedImports.Editor.Uri
import UnusedImports.Finding
import UnusedImports.Instant
import UnusedImports.Json.Basic
import UnusedImports.Json.Decode
import UnusedImports.Json.Parser
import UnusedImports.Json.Printer
import UnusedImports.Json.Shape
import UnusedImports.Log.Handler
import UnusedImports.Log.Level
import UnusedImports.Log.Record
import UnusedImports.Main
import UnusedImports.Metrics.Basic
import UnusedImports.Metrics.Exposition
import UnusedImports.Number.Binary64
import UnusedImports.Number.Integer
import UnusedImports.Number.Shortest
import UnusedImports.Number.Wrap
import UnusedImports.Path
import UnusedImports.Preview
import UnusedImports.Project.Enumerate
import UnusedImports.Project.Language
import UnusedImports.Project.Previews
import UnusedImports.Project.Scan
import UnusedImports.Project.SourceFile
import UnusedImports.Project.Vendored
import UnusedImports.Project.Workers
import UnusedImports.Report.Basic
import UnusedImports.Report.Chart
import UnusedImports.Report.Format
import UnusedImports.Report.Json
import UnusedImports.Report.Recommendation
import UnusedImports.Report.Text
import UnusedImports.Report.Yaml
import UnusedImports.Source.Identifier
import UnusedImports.Source.Import
import UnusedImports.Source.Lexeme
import UnusedImports.Source.Lexer
import UnusedImports.Source.Reexport
import UnusedImports.Source.Scan
import UnusedImports.Source.Token
import UnusedImports.Source.Usage
import UnusedImports.Strategy
import UnusedImports.Sweep
import UnusedImports.Text.Bytes
import UnusedImports.Text.CodePoint
import UnusedImports.Text.Color
import UnusedImports.Text.DecimalDigit
import UnusedImports.Text.Distance
import UnusedImports.Text.Letter
import UnusedImports.Text.Lines
import UnusedImports.Text.LowerCase
import UnusedImports.Text.Mark
import UnusedImports.Text.Printable
import UnusedImports.Text.Quoted
import UnusedImports.Text.Table
import UnusedImports.Text.Trim
import UnusedImports.Text.Utf8
import UnusedImports.Text.Width
import UnusedImports.Tool.Command
import UnusedImports.Tool.Eslint
import UnusedImports.Tool.Process
import UnusedImports.Tool.Programs
import UnusedImports.Tool.Shell
import UnusedImports.Tool.TsPrune
import UnusedImports.Tree
import UnusedImports.Version
import UnusedImports.Yaml.Base64
import UnusedImports.Yaml.Character
import UnusedImports.Yaml.Cursor
import UnusedImports.Yaml.Decode
import UnusedImports.Yaml.Form
import UnusedImports.Yaml.Pen
import UnusedImports.Yaml.Reader
import UnusedImports.Yaml.Resolve
import UnusedImports.Yaml.Scalar
import UnusedImports.Yaml.Scanner
import UnusedImports.Yaml.Stream
import UnusedImports.Yaml.Tag
import UnusedImports.Yaml.Token
import UnusedImports.Yaml.Value
import UnusedImports.Yaml.Writer
import UnusedImports.Proofs.Import.Declarations
import UnusedImports.Proofs.Reexport.Spans
import UnusedImports.Proofs.Lexer.Trivia
import UnusedImports.Proofs.Lexer.Rules
import UnusedImports.Proofs.Usage.Unused
import UnusedImports.Proofs.Lexer.Lossless
import UnusedImports.Proofs.Lexer.Name
import UnusedImports.Proofs.Markup.Expression
import UnusedImports.Proofs.Markup.Steps
import UnusedImports.Proofs.Markup.Nesting
import UnusedImports.Proofs.Import.Derivation
import UnusedImports.Proofs.Text.WellFormed
import UnusedImports.Proofs.Lexer.Class
import UnusedImports.Proofs.Lexer.Reading
import UnusedImports.Proofs.Lexer.Coverage
import UnusedImports.Proofs.Lexer.Boundary
import UnusedImports.Proofs.Lexer.Place
import UnusedImports.Proofs.Import.Names
import UnusedImports.Proofs.Edit.Removal
import UnusedImports.Proofs.Edit.Substitution
import UnusedImports.Proofs.Edit.Span
import UnusedImports.Proofs.Edit.Confined
import UnusedImports.Proofs.Edit.Overlap
import UnusedImports.Proofs.Editor.Document
import UnusedImports.Proofs.Editor.CodeAction
import UnusedImports.Proofs.Import.Alias
import UnusedImports.Proofs.Editor.Diagnostic
import UnusedImports.Proofs.Report.Merge
import UnusedImports.Proofs.Report.Order
import UnusedImports.Proofs.Lexer.Spelling
import UnusedImports.Proofs.Edit.Rendering
import UnusedImports.Proofs.Edit.RoundTrip
import UnusedImports.Proofs.Report.Account
import UnusedImports.Proofs.Report.Arrival
import UnusedImports.Proofs.Report.Chain
import UnusedImports.Proofs.Sweep.Capping
import UnusedImports.Proofs.Sweep.Disabled
import UnusedImports.Proofs.Tool.Outcome
import UnusedImports.Proofs.Text.Trim
import UnusedImports.Proofs.Tool.Records
import UnusedImports.Proofs.Project.Merging
import UnusedImports.Proofs.Project.Schedule
import UnusedImports.Proofs.Text.Lines
import UnusedImports.Proofs.Diff.Script
import UnusedImports.Proofs.Diff.Patch
import UnusedImports.Proofs.Path.Elements
import UnusedImports.Proofs.Path.Report
import UnusedImports.Proofs.Tree.Resolution
import UnusedImports.Proofs.Tree.Leaves
import UnusedImports.Proofs.Project.Enumeration
import UnusedImports.Proofs.Editor.Publication
import UnusedImports.Proofs.Editor.Extension
import UnusedImports.Proofs.Text.Search
import UnusedImports.Proofs.Lexer.Reach
import UnusedImports.Proofs.Lexer.Termination
import UnusedImports.Proofs.Lexer.Frames
import UnusedImports.Proofs.Lexer.Inside
import UnusedImports.Proofs.Lexer.Resume
import UnusedImports.Proofs.Lexer.Abreast
import UnusedImports.Proofs.Lexer.Exchange
import UnusedImports.Proofs.Lexer.Stretch
import UnusedImports.Proofs.Edit.Shape
import UnusedImports.Proofs.Edit.Quoting
import UnusedImports.Proofs.Edit.ReadBack
import UnusedImports.Proofs.Lexer.Comment
import UnusedImports.Proofs.Lexer.Element
import UnusedImports.Proofs.Usage.TrailingComment
import UnusedImports.Proofs.Lexer.CarriageReturn
import UnusedImports.Proofs.Import.Outline
import UnusedImports.Proofs.Lexer.LineEnding
import UnusedImports.Proofs.Usage.LineEnding
import UnusedImports.Proofs.Reexport.Grammar
import UnusedImports.Proofs.Project.SizeLimit
import UnusedImports.Proofs.Report.Listing
import UnusedImports.Proofs.Text.Alignment
import UnusedImports.Proofs.Lexer.WholeWord
import UnusedImports.Proofs.Edit.InRange
import UnusedImports.Proofs.Usage.LineCount
