import MiniJava.Main
import MiniJava.Tree.Equality
import MiniJava.Proofs.Lexical.Segments
import MiniJava.Proofs.Lexical.Scan
import MiniJava.Proofs.Lexical.Boundary
import MiniJava.Proofs.Lexical.Spacing
import MiniJava.Proofs.Production.CleanRun
import MiniJava.Proofs.Rendering.Expression
import MiniJava.Proofs.Rendering.Program
import MiniJava.Proofs.Rendering.ExpressionSoundness
import MiniJava.Proofs.Rendering.Sound
import MiniJava.Proofs.Rendering.StatementSoundness
import MiniJava.Proofs.Rendering.ProgramSoundness
import MiniJava.Proofs.Production.Consumption
import MiniJava.Proofs.Grammar.Progress
import MiniJava.Proofs.Production.Descent
import MiniJava.Proofs.Grammar.Termination
import MiniJava.Proofs.Grammar.Source
import MiniJava.Proofs.Grammar.Braces
import MiniJava.Proofs.Grammar.Containment
import MiniJava.Proofs.Production.Simulation
import MiniJava.Proofs.Grammar.Locality
import MiniJava.Proofs.Grammar.Resilience
import MiniJava.Proofs.Rendering.Complete
import MiniJava.Proofs.Rendering.ExpressionCompleteness
import MiniJava.Proofs.Rendering.StatementCompleteness
import MiniJava.Proofs.Rendering.ProgramCompleteness
import MiniJava.Proofs.Rendering.Strict
import MiniJava.Proofs.Rendering.StrictRendering
import MiniJava.Proofs.Rendering.RoundTrip
import MiniJava.Proofs.Grammar.Nesting
import MiniJava.Proofs.Grammar.SelfContained
import MiniJava.Proofs.Grammar.BlockRecovery
import MiniJava.Proofs.Grammar.MethodRecovery
import MiniJava.Proofs.Production.Result
import MiniJava.Proofs.Tree.Nodes
import MiniJava.Proofs.Production.Derivation
import MiniJava.Proofs.Grammar.Derivation
import MiniJava.Proofs.Lexical.Order
import MiniJava.Proofs.Tree.Places
import MiniJava.Proofs.Grammar.Places
import MiniJava.Proofs.Grammar.Shape
import MiniJava.Proofs.Grammar.ExpressionSlots
import MiniJava.Proofs.Numeric.Nearest
import MiniJava.Proofs.Json.Grammar
import MiniJava.Proofs.Json.Unambiguity
import MiniJava.Proofs.Json.Numerals
import MiniJava.Proofs.Json.Spacing
import MiniJava.Proofs.Json.Indentation
import MiniJava.Proofs.Lexical.Reals
import MiniJava.Proofs.Tree.Display
import MiniJava.Proofs.Grammar.TreeText
import MiniJava.Proofs.Grammar.Stream
import MiniJava.Proofs.Grammar.Lookahead
import MiniJava.Proofs.Grammar.LayoutIndependence
import MiniJava.Proofs.Production.Complaint
import MiniJava.Proofs.Grammar.Complaint
import MiniJava.Proofs.Lexical.FaultOrder
import MiniJava.Proofs.Grammar.DiagnosticOrder
import MiniJava.Proofs.Grammar.SoundTokens
import MiniJava.Proofs.Grammar.Draining
import MiniJava.Proofs.Cli.Disk
import MiniJava.Proofs.Cli.Console
import MiniJava.Proofs.Cli.Arguments
import MiniJava.Proofs.Cli.Run
import MiniJava.Proofs.Lexical.Newline
import MiniJava.Proofs.Lexical.Concatenation
import MiniJava.Proofs.Lexical.Quotation
import MiniJava.Proofs.Grammar.Quotation
import MiniJava.Proofs.Cli.Lines
import MiniJava.Proofs.Lexical.Attempt
import MiniJava.Proofs.Lexical.QuotedLiteral
import MiniJava.Proofs.Lexical.NumberForms
import MiniJava.Proofs.Lexical.NumberReading
import MiniJava.Proofs.Lexical.WholeWords
import MiniJava.Proofs.Grammar.Grouping
import MiniJava.Proofs.Json.NormalForm
import MiniJava.Proofs.Lexical.Request
import MiniJava.Proofs.Grammar.Skipping
import MiniJava.Proofs.Json.Compact
import MiniJava.Proofs.Json.Rows
import MiniJava.Proofs.Json.Nesting
import MiniJava.Proofs.Json.Lines
import MiniJava.Proofs.Json.Objects
import MiniJava.Proofs.Tree.Layout
import MiniJava.Proofs.Tree.Objects
import MiniJava.Proofs.Lexical.Rounds
import MiniJava.Proofs.Lexical.Consumption
