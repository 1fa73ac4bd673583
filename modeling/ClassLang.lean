import ClassLang.Bindings
import ClassLang.Source.Span
import ClassLang.Source.Diagnostic
import ClassLang.Text.Blank
import ClassLang.Text.Digits
import ClassLang.Text.Quoted
import ClassLang.Text.Terminal
import ClassLang.Double.Powers
import ClassLang.Double.Parts
import ClassLang.Double.Remainder
import ClassLang.Double.Shortest
import ClassLang.Double.Text
import ClassLang.Literal
import ClassLang.Token.Basic
import ClassLang.Token.Lexer
import ClassLang.Tree.Basic
import ClassLang.Tree.Flatten
import ClassLang.Tree.Printer
import ClassLang.Parse.Fault
import ClassLang.Parse.Cursor
import ClassLang.Parse.Expression
import ClassLang.Parse.Statement
import ClassLang.Parse.Program
import ClassLang.Value.Basic
import ClassLang.Value.Fault
import ClassLang.Value.Operators
import ClassLang.Builtin
import ClassLang.Class
import ClassLang.Scope
import ClassLang.Journal
import ClassLang.Sink
import ClassLang.Machine.Host
import ClassLang.Machine.State
import ClassLang.Machine.Linked
import ClassLang.Machine.Evaluation
import ClassLang.Machine.Session
import ClassLang.CommandLine.Arguments
import ClassLang.CommandLine.Folder
import ClassLang.CommandLine.Execute
import ClassLang.Main
import ClassLang.Proofs.Erasure
import ClassLang.Proofs.Grammar.Rules
import ClassLang.Proofs.Grammar.Reading
import ClassLang.Proofs.Grammar.ExpressionReading
import ClassLang.Proofs.Grammar.ProgramReading
import ClassLang.Proofs.Grammar.Soundness
import ClassLang.Proofs.Grammar.Locality
import ClassLang.Proofs.Grammar.EndOfInput
import ClassLang.Proofs.Grammar.MethodFlag
import ClassLang.Proofs.Grammar.Acceptance
import ClassLang.Proofs.Spelling.Basic
import ClassLang.Proofs.Spelling.Tokens
import ClassLang.Proofs.Double.Sign
import ClassLang.Proofs.Double.Reading
import ClassLang.Proofs.Printing.Reread
import ClassLang.Proofs.Printing.ExpressionText
import ClassLang.Proofs.Printing.ProgramText
import ClassLang.Proofs.Printing.Derived
import ClassLang.Proofs.RoundTrip
import ClassLang.Proofs.Relocation
import ClassLang.Proofs.Machine.Composition
import ClassLang.Proofs.Machine.Discipline
import ClassLang.Proofs.Machine.Scoping
import ClassLang.Proofs.Machine.Sessions
import ClassLang.Proofs.Machine.Naming
import ClassLang.Proofs.Machine.EmptyFrames
import ClassLang.Proofs.Machine.Paraphrase
import ClassLang.Proofs.Machine.Coupling
import ClassLang.Proofs.Machine.CoupledRuns
import ClassLang.Proofs.Machine.Endings
import ClassLang.Proofs.Machine.Placeless
import ClassLang.Proofs.Machine.Chronicle
import ClassLang.Proofs.Machine.Tasks
import ClassLang.Proofs.Machine.Moments
import ClassLang.Proofs.Machine.DepthLimit
import ClassLang.Proofs.Machine.Contract
import ClassLang.Proofs.Machine.LoopFree
import ClassLang.Proofs.Machine.Resolution
import ClassLang.Proofs.Machine.Linking
import ClassLang.Proofs.Machine.Refinement
import ClassLang.Proofs.Machine.Isolation
import ClassLang.Proofs.Sites
import ClassLang.Proofs.Machine.Instances
import ClassLang.Proofs.Machine.Output
import ClassLang.Proofs.Spelling.Seams
import ClassLang.Proofs.Concatenation
import ClassLang.Proofs.Spelling.Spacing
import ClassLang.Proofs.Spelling.Coverage
import ClassLang.Proofs.Layout
import ClassLang.Proofs.Printing.Braces
import ClassLang.Proofs.Flattening
import ClassLang.Proofs.Grammar.Origins
import ClassLang.Proofs.Machine.Failures
import ClassLang.Proofs.Grammar.Progress
import ClassLang.Proofs.Grammar.Shape
import ClassLang.Proofs.Reprinting
import ClassLang.Proofs.Grammar.Extents
import ClassLang.Proofs.Grammar.Nesting
import ClassLang.Proofs.Machine.ForLoops
import ClassLang.Proofs.Printing.LiteralText
import ClassLang.Proofs.Grammar.Recovery
import ClassLang.Proofs.Integers
import ClassLang.Proofs.Grammar.Beginnings
import ClassLang.Proofs.Grammar.StatementSpans
import ClassLang.Proofs.Printing.LineByLine
