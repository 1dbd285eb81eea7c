import Extraction.Analysis.Diagnostic
import Extraction.Analysis.Event
import Extraction.Analysis.Flow
import Extraction.Analysis.Locals
import Extraction.Analysis.Raises
import Extraction.Analysis.Signature
import Extraction.Analysis.Trace
import Extraction.Analysis.Verdict
import Extraction.Check.Extractability
import Extraction.Check.Outcome
import Extraction.Check.Program
import Extraction.Check.Registry
import Extraction.CommandLine.Command
import Extraction.CommandLine.Flag
import Extraction.CommandLine.Help
import Extraction.CommandLine.Options
import Extraction.CommandLine.Script
import Extraction.CommandLine.Session
import Extraction.CommandLine.Suggestion
import Extraction.GoCode.Form
import Extraction.GoCode.Lexeme
import Extraction.GoCode.LineDirective
import Extraction.GoCode.PackageClause
import Extraction.GoCode.Syntax
import Extraction.GoCode.Tree
import Extraction.Main
import Extraction.Report.Document
import Extraction.Report.Findings
import Extraction.Report.Log
import Extraction.Report.Table
import Extraction.Settings.Basic
import Extraction.Settings.Decoder
import Extraction.Settings.Mismatch
import Extraction.Settings.Reading
import Extraction.Syntax.Binding
import Extraction.Syntax.Forest
import Extraction.Syntax.Kind
import Extraction.Syntax.Node
import Extraction.Syntax.Sketch
import Extraction.Syntax.Walk
import Extraction.Text.Base64
import Extraction.Text.Boundaries
import Extraction.Text.CharClass
import Extraction.Text.Csv
import Extraction.Text.Decimal
import Extraction.Text.Disk
import Extraction.Text.Double
import Extraction.Text.Extent
import Extraction.Text.Glyph
import Extraction.Text.Integer
import Extraction.Text.Path
import Extraction.Text.Quoted
import Extraction.Text.Selection
import Extraction.Text.SourceFile
import Extraction.Yaml.BlockText
import Extraction.Yaml.Comment
import Extraction.Yaml.Composer
import Extraction.Yaml.Cursor
import Extraction.Yaml.Datum
import Extraction.Yaml.FlowText
import Extraction.Yaml.Lexer
import Extraction.Yaml.Problem
import Extraction.Yaml.Property
import Extraction.Yaml.Scalar
import Extraction.Yaml.Tag
import Extraction.Yaml.Timestamp
import Extraction.Yaml.Token
import Extraction.Yaml.Value
import Extraction.Yaml.Written
import Extraction.Proofs.Layout
import Extraction.Proofs.Stream
import Extraction.Proofs.Phases
import Extraction.Proofs.Enclosing
import Extraction.Proofs.Legality
import Extraction.Proofs.Exposed
import Extraction.Proofs.FlowTree
import Extraction.Proofs.Selected
import Extraction.Proofs.Classification
import Extraction.Proofs.Siblings
import Extraction.Proofs.Topmost
import Extraction.Proofs.Totality
import Extraction.Proofs.Grammar
import Extraction.Proofs.FlowRules
import Extraction.Proofs.RegularFlow
import Extraction.Proofs.FlowSoundness
import Extraction.Proofs.Escapes
import Extraction.Proofs.OpenBranches
import Extraction.Proofs.LeavingJumps
import Extraction.Proofs.Accesses
import Extraction.Proofs.Assigned
import Extraction.Proofs.Continuation
import Extraction.Proofs.Reentry
import Extraction.Proofs.Following
import Extraction.Proofs.Declared
import Extraction.Proofs.JumpLabels
import Extraction.Proofs.Locality
import Extraction.Proofs.Building
import Extraction.Proofs.Coverage
import Extraction.Proofs.Lexemes
import Extraction.Proofs.Logging
import Extraction.Proofs.Outcomes
import Extraction.Proofs.Arguments
import Extraction.Proofs.TryFlow
import Extraction.Proofs.AccessOrder
import Extraction.Proofs.FileNames
import Extraction.Proofs.GoStores
import Extraction.Proofs.LineColumns
import Extraction.Proofs.InitialEntries
import Extraction.Proofs.Tiling
import Extraction.Proofs.Brackets
import Extraction.Proofs.StatementTree
import Extraction.Proofs.Hierarchy
import Extraction.Proofs.Traversal
