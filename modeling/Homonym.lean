import Homonym.CommandLine.Arguments
import Homonym.CommandLine.Given
import Homonym.CommandLine.Help
import Homonym.CommandLine.Options
import Homonym.CommandLine.Parser
import Homonym.Declaration.Excerpt
import Homonym.Declaration.Json
import Homonym.Declaration.Kind
import Homonym.Declaration.Occurrence
import Homonym.Discovery.FileError
import Homonym.Discovery.Options
import Homonym.Discovery.Selection
import Homonym.Discovery.Walk
import Homonym.Duplicates.Filter
import Homonym.Duplicates.FirstPer
import Homonym.Duplicates.Grouping
import Homonym.Duplicates.Report
import Homonym.Duplicates.ReportJson
import Homonym.Duplicates.Rules
import Homonym.Expression.Basic
import Homonym.Expression.CharClass
import Homonym.Expression.Reader
import Homonym.Expression.Search
import Homonym.Failure.Causes
import Homonym.Failure.ExitCode
import Homonym.FileTree.Basic
import Homonym.FileTree.OsError
import Homonym.FileTree.Resolve
import Homonym.FileTree.Write
import Homonym.Json.Basic
import Homonym.Json.Lexical
import Homonym.Json.Reader
import Homonym.Json.Record
import Homonym.Json.Skim
import Homonym.Json.Writer
import Homonym.Log.Basic
import Homonym.Log.Color
import Homonym.Log.Filter
import Homonym.Log.Plain
import Homonym.Main
import Homonym.Path
import Homonym.Pattern.Glob
import Homonym.Pattern.GlobMatch
import Homonym.Pattern.GlobNesting
import Homonym.Pattern.GlobReader
import Homonym.Pattern.GlobRoom
import Homonym.Pattern.IgnoreList
import Homonym.Proofs.CommandLine.Written
import Homonym.Proofs.Declaration.Excerpt
import Homonym.Proofs.Discovery.Defaults
import Homonym.Proofs.Discovery.Excluding
import Homonym.Proofs.Discovery.Pruning
import Homonym.Proofs.Discovery.Reach
import Homonym.Proofs.Discovery.RootName
import Homonym.Proofs.Discovery.RootRules
import Homonym.Proofs.Discovery.SeenPaths
import Homonym.Proofs.Duplicates.Groups
import Homonym.Proofs.Duplicates.Ignoring
import Homonym.Proofs.Duplicates.InOrder
import Homonym.Proofs.Duplicates.Listed
import Homonym.Proofs.Duplicates.Partition
import Homonym.Proofs.Duplicates.Ranking
import Homonym.Proofs.Duplicates.ReportText
import Homonym.Proofs.Duplicates.Spread
import Homonym.Proofs.Duplicates.Summary
import Homonym.Proofs.Duplicates.Tally
import Homonym.Proofs.FileTree.FreshDirs
import Homonym.Proofs.FileTree.Growth
import Homonym.Proofs.FileTree.Plain
import Homonym.Proofs.FileTree.Ways
import Homonym.Proofs.Json.Layout
import Homonym.Proofs.Json.Tokens
import Homonym.Proofs.Path.Ancestors
import Homonym.Proofs.Path.Below
import Homonym.Proofs.Path.Joined
import Homonym.Proofs.Pattern.AnyDepth
import Homonym.Proofs.Pattern.OnePath
import Homonym.Proofs.Render.Csv
import Homonym.Proofs.Render.Decoration
import Homonym.Proofs.Render.Lossless
import Homonym.Proofs.Render.Outline
import Homonym.Proofs.Scan.AllOrNothing
import Homonym.Proofs.Scan.Excluding
import Homonym.Proofs.Scan.Found
import Homonym.Proofs.Scan.InOrder
import Homonym.Proofs.Scan.Interruption
import Homonym.Proofs.Scan.Outcome
import Homonym.Proofs.Scan.Phases
import Homonym.Proofs.Scan.Refinement
import Homonym.Proofs.Scan.Strict
import Homonym.Proofs.Scan.Turns
import Homonym.Proofs.Scan.WalkedFiles
import Homonym.Proofs.Session.ExitCode
import Homonym.Proofs.Settings.Entries
import Homonym.Proofs.Settings.Environment
import Homonym.Proofs.Settings.Fields
import Homonym.Proofs.Settings.Layers
import Homonym.Proofs.Settings.Precedence
import Homonym.Proofs.Settings.Reloaded
import Homonym.Proofs.Settings.Saved
import Homonym.Proofs.Settings.Saving
import Homonym.Proofs.Settings.Spelling
import Homonym.Proofs.Source.AnonymousExport
import Homonym.Proofs.Source.Automaton
import Homonym.Proofs.Source.BindingList
import Homonym.Proofs.Source.Checked
import Homonym.Proofs.Source.Comments
import Homonym.Proofs.Source.Concatenation
import Homonym.Proofs.Source.Cut
import Homonym.Proofs.Source.Grammar
import Homonym.Proofs.Source.Literals
import Homonym.Proofs.Source.LoneStatement
import Homonym.Proofs.Source.Moments
import Homonym.Proofs.Source.Nested
import Homonym.Proofs.Source.Once
import Homonym.Proofs.Source.OnePass
import Homonym.Proofs.Source.OpenList
import Homonym.Proofs.Source.Order
import Homonym.Proofs.Source.OwnText
import Homonym.Proofs.Source.Stop
import Homonym.Proofs.Source.TopLevel
import Homonym.Proofs.Source.TypeArguments
import Homonym.Proofs.Text.ByteOffsets
import Homonym.Proofs.Text.ByteOrder
import Homonym.Proofs.Text.Capitals
import Homonym.Proofs.Text.Lines
import Homonym.Proofs.Text.Position
import Homonym.Proofs.Text.Words
import Homonym.Proofs.Toml.Document
import Homonym.Proofs.Toml.Strings
import Homonym.Proofs.Toml.Values
import Homonym.Render.Console
import Homonym.Render.Csv
import Homonym.Render.Format
import Homonym.Render.Markdown
import Homonym.Scan.Monitor
import Homonym.Scan.Result
import Homonym.Scan.Run
import Homonym.Scan.Switches
import Homonym.Scan.Workers
import Homonym.Session.Basic
import Homonym.Session.Execution
import Homonym.Settings.Basic
import Homonym.Settings.Envelope
import Homonym.Settings.Field
import Homonym.Settings.Json
import Homonym.Settings.Load
import Homonym.Settings.OfValue
import Homonym.Settings.Overrides
import Homonym.Settings.Variables
import Homonym.Settings.Write
import Homonym.Source.Bindings
import Homonym.Source.Extraction
import Homonym.Source.Nesting
import Homonym.Source.Statement
import Homonym.Text.Blank
import Homonym.Text.CaseFold
import Homonym.Text.CaseMates
import Homonym.Text.Category
import Homonym.Text.Duration
import Homonym.Text.Hex
import Homonym.Text.Lines
import Homonym.Text.Lossy
import Homonym.Text.Magnitude
import Homonym.Text.Split
import Homonym.Text.Words
import Homonym.Toml.Lexical
import Homonym.Toml.Number
import Homonym.Toml.Reader
import Homonym.Toml.Table
import Homonym.Toml.Writer
import Homonym.Value
