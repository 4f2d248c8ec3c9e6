import TinyImp.Asm
import TinyImp.Asm.Code
import TinyImp.Checker
import TinyImp.Command.Arguments
import TinyImp.Command.Disk
import TinyImp.Command.Files
import TinyImp.Command.Path
import TinyImp.Command.Run
import TinyImp.Compilation
import TinyImp.Diagnostic
import TinyImp.Expr
import TinyImp.Log
import TinyImp.Main
import TinyImp.Number.Binary64
import TinyImp.Number.Shortest
import TinyImp.Number.Written
import TinyImp.Parser.Basic
import TinyImp.Parser.Error
import TinyImp.Parser.Expression
import TinyImp.Parser.Statement
import TinyImp.Program.Tree
import TinyImp.Proofs.Checking.Inline
import TinyImp.Proofs.Checking.Represents
import TinyImp.Proofs.Checking.Resolve
import TinyImp.Proofs.Checking.Scoping
import TinyImp.Proofs.Checking.WellFormed
import TinyImp.Proofs.Execution.Evaluation
import TinyImp.Proofs.Execution.Labels
import TinyImp.Proofs.Execution.Machine
import TinyImp.Proofs.Execution.Meaning
import TinyImp.Proofs.Execution.Preservation
import TinyImp.Proofs.Parsing.Basic
import TinyImp.Proofs.Parsing.Completeness
import TinyImp.Proofs.Parsing.Expression
import TinyImp.Proofs.Parsing.Grammar
import TinyImp.Proofs.Parsing.Lookahead
import TinyImp.Proofs.Parsing.Reading
import TinyImp.Proofs.Parsing.SingleToken
import TinyImp.Proofs.Parsing.Soundness
import TinyImp.Stmt
import TinyImp.Symbols
import TinyImp.Symbols.Fault
import TinyImp.Text.Column
import TinyImp.Text.Extending
import TinyImp.Text.Quoted
import TinyImp.Text.Unprintable
import TinyImp.Token
import TinyImp.Token.Lexeme
import TinyImp.Token.Scanner
import TinyImp.Ty
import TinyImp.Proofs.Parsing.Recognition
import TinyImp.Proofs.Parsing.CorrectPrefix
import TinyImp.Proofs.Parsing.Printing
import TinyImp.Proofs.Checking.Frame
import TinyImp.Proofs.Checking.Balance
import TinyImp.Proofs.Number.Rounding
import TinyImp.Proofs.Scanning.Lexical
import TinyImp.Proofs.Scanning.MaximalMunch
import TinyImp.Proofs.Checking.Noninterference
import TinyImp.Proofs.Parsing.Lockstep
import TinyImp.Proofs.Checking.Leniency
import TinyImp.Proofs.Checking.History
import TinyImp.Proofs.Execution.Blocks
import TinyImp.Proofs.Code.Nodes
import TinyImp.Proofs.Code.Jumps
import TinyImp.Proofs.Code.Registers
import TinyImp.Proofs.Code.Names
import TinyImp.Proofs.Checking.Lookups
import TinyImp.Proofs.Checking.Fallback
import TinyImp.Proofs.Scanning.Boundaries
import TinyImp.Proofs.Scanning.Spacing
import TinyImp.Proofs.Code.ForLoops
import TinyImp.Proofs.Parsing.Stratified
import TinyImp.Proofs.Parsing.Progress
import TinyImp.Proofs.Parsing.Unbounded
import TinyImp.Proofs.Parsing.Cursor
import TinyImp.Proofs.Text.Lines
import TinyImp.Proofs.Checking.Calls
import TinyImp.Proofs.Scanning.Problems
import TinyImp.Proofs.Code.DataSection
import TinyImp.Proofs.Code.CallSites
import TinyImp.Proofs.Code.CallOrder
import TinyImp.Proofs.Code.CallProtocol
import TinyImp.Proofs.Code.Composition
import TinyImp.Proofs.Number.ReadBack
import TinyImp.Proofs.Program.Spelling
import TinyImp.Proofs.Code.Listing
import TinyImp.Proofs.Program.TreeView
import TinyImp.Proofs.Checking.Locations
import TinyImp.Proofs.Command.Table
import TinyImp.Proofs.Command.FileSystem
import TinyImp.Proofs.Command.Running
import TinyImp.Proofs.Command.DefaultOutput
import TinyImp.Proofs.Program.Origin
import TinyImp.Proofs.Command.Summary
