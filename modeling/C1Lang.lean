import C1Lang.Build.FileTree
import C1Lang.Build.Host
import C1Lang.Build.Log
import C1Lang.Build.Run
import C1Lang.Command.Invocation
import C1Lang.Command.Options
import C1Lang.Compiled
import C1Lang.Diagnostic.Basic
import C1Lang.Diagnostic.Render
import C1Lang.Diagnostic.Style
import C1Lang.IR.Builder
import C1Lang.IR.Export
import C1Lang.IR.Instr
import C1Lang.IR.Json
import C1Lang.IR.Module
import C1Lang.IR.Printer
import C1Lang.IR.Ty
import C1Lang.IR.Verify
import C1Lang.Lower.Context
import C1Lang.Lower.Expr
import C1Lang.Lower.Program
import C1Lang.Lower.Scope
import C1Lang.Lower.State
import C1Lang.Lower.Stmt
import C1Lang.Lower.Value
import C1Lang.Main
import C1Lang.Number.Decimal
import C1Lang.Number.Digits
import C1Lang.Number.Shortest
import C1Lang.Parser.Expression
import C1Lang.Parser.Program
import C1Lang.Parser.State
import C1Lang.Parser.Statement
import C1Lang.Program.Arena
import C1Lang.Program.Dump
import C1Lang.Program.Tree
import C1Lang.Project.Config
import C1Lang.Proofs.Build.FileTree
import C1Lang.Proofs.Build.Run
import C1Lang.Proofs.Compiled
import C1Lang.Proofs.Diagnostic.Excerpt
import C1Lang.Proofs.Execution.Code
import C1Lang.Proofs.Execution.Expression
import C1Lang.Proofs.Execution.Folding
import C1Lang.Proofs.Execution.Machine
import C1Lang.Proofs.Execution.Preservation
import C1Lang.Proofs.Execution.Simulation
import C1Lang.Proofs.Execution.Statement
import C1Lang.Proofs.Execution.Store
import C1Lang.Proofs.Execution.Tree
import C1Lang.Proofs.Formula
import C1Lang.Proofs.FrontEnd
import C1Lang.Proofs.IR.Access
import C1Lang.Proofs.IR.Assembly
import C1Lang.Proofs.IR.Assignment
import C1Lang.Proofs.IR.Construction
import C1Lang.Proofs.IR.Extension
import C1Lang.Proofs.IR.Flow
import C1Lang.Proofs.IR.Path
import C1Lang.Proofs.IR.Placeholders
import C1Lang.Proofs.IR.Reach
import C1Lang.Proofs.IR.Typing
import C1Lang.Proofs.IR.WellFormed
import C1Lang.Proofs.Lower.Code
import C1Lang.Proofs.Lower.Constancy
import C1Lang.Proofs.Lower.Diagnostics
import C1Lang.Proofs.Lower.Elements
import C1Lang.Proofs.Lower.Emission
import C1Lang.Proofs.Lower.Functions
import C1Lang.Proofs.Lower.Module
import C1Lang.Proofs.Lower.Outcome
import C1Lang.Proofs.Lower.Progress
import C1Lang.Proofs.Lower.Rollback
import C1Lang.Proofs.Lower.Scoping
import C1Lang.Proofs.Lower.Shape
import C1Lang.Proofs.Lower.Statement
import C1Lang.Proofs.Lower.Stores
import C1Lang.Proofs.Number.Interval
import C1Lang.Proofs.Number.Nearest
import C1Lang.Proofs.Number.Notation
import C1Lang.Proofs.Number.Text
import C1Lang.Proofs.Number.Word
import C1Lang.Proofs.Parser.Alongside
import C1Lang.Proofs.Parser.Bookkeeping
import C1Lang.Proofs.Parser.Comments
import C1Lang.Proofs.Parser.Completeness
import C1Lang.Proofs.Parser.Containment
import C1Lang.Proofs.Parser.Cursor
import C1Lang.Proofs.Parser.Grammar
import C1Lang.Proofs.Parser.Literals
import C1Lang.Proofs.Parser.Reports
import C1Lang.Proofs.Parser.Segments
import C1Lang.Proofs.Parser.Soundness
import C1Lang.Proofs.Parser.Stored
import C1Lang.Proofs.Parser.Storing
import C1Lang.Proofs.Parser.Termination
import C1Lang.Proofs.Parser.Tracking
import C1Lang.Proofs.Program.Dump
import C1Lang.Proofs.Program.Forest
import C1Lang.Proofs.Program.Height
import C1Lang.Proofs.Program.Names
import C1Lang.Proofs.Program.Nesting
import C1Lang.Proofs.Program.Shape
import C1Lang.Proofs.Program.Sites
import C1Lang.Proofs.Relabeling.Basic
import C1Lang.Proofs.Relabeling.Compiled
import C1Lang.Proofs.Relabeling.Lower
import C1Lang.Proofs.Relabeling.Parser
import C1Lang.Proofs.Sequencing
import C1Lang.Proofs.Source.LineTable
import C1Lang.Proofs.Source.Position
import C1Lang.Proofs.SourceOrder
import C1Lang.Proofs.Static.Constant
import C1Lang.Proofs.Static.Evaluation
import C1Lang.Proofs.Static.Judgement
import C1Lang.Proofs.Token.Coverage
import C1Lang.Proofs.Token.Lines
import C1Lang.Proofs.Token.Locality
import C1Lang.Proofs.Token.Reading
import C1Lang.Proofs.Token.Slices
import C1Lang.Proofs.Token.Spelling
import C1Lang.Source.Path
import C1Lang.Source.Span
import C1Lang.Source.Symbols
import C1Lang.Source.Text
import C1Lang.Token.Basic
import C1Lang.Token.Kind
import C1Lang.Token.Lexer
import C1Lang.Token.Table
import C1Lang.Toml.Moment
import C1Lang.Toml.Reader
import C1Lang.Toml.Text
import C1Lang.Toml.Value
