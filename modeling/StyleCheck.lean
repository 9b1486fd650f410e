import StyleCheck.Main
import StyleCheck.Proofs.Scan.Offset
import StyleCheck.Proofs.Scan.Span
import StyleCheck.Proofs.Report
import StyleCheck.Proofs.Tree.LevelOrder
import StyleCheck.Proofs.Check
import StyleCheck.Proofs.Parsing.Name
import StyleCheck.Proofs.Parsing.Outline
import StyleCheck.Proofs.Parsing.Parts
import StyleCheck.Proofs.Parsing.RoundTrip
import StyleCheck.Proofs.Scan.Run
import StyleCheck.Proofs.Scan.Brackets
import StyleCheck.Proofs.Scan.Levels
import StyleCheck.Proofs.Parsing.Ensures
import StyleCheck.Proofs.Parsing.Spends
import StyleCheck.Proofs.Parsing.Suffix
import StyleCheck.Proofs.Parsing.Remainder
import StyleCheck.Proofs.Parsing.Knot
import StyleCheck.Proofs.Faults.Stays
import StyleCheck.Proofs.Operators.Language
import StyleCheck.Proofs.Operators.Sound
import StyleCheck.Proofs.Operators.Complete
import StyleCheck.Proofs.Parsing.Anchor
import StyleCheck.Proofs.Parsing.Order
import StyleCheck.Proofs.Scan.Words
import StyleCheck.Proofs.Scan.Place
import StyleCheck.Proofs.Scan.Outcome
import StyleCheck.Proofs.Scan.Hollow
import StyleCheck.Proofs.Scan.Rendering
import StyleCheck.Proofs.Parsing.Suites
import StyleCheck.Syntax.Lexer
import StyleCheck.Proofs.Lexer.Behind
import StyleCheck.Proofs.Lexer.Strings
import StyleCheck.Proofs.Lexer.Refinement
import StyleCheck.Proofs.ByteOrderMark
import StyleCheck.Proofs.Findings
import StyleCheck.Proofs.Naming
import StyleCheck.Proofs.Faults.Expressions
import StyleCheck.Proofs.Faults.Statements
import StyleCheck.Proofs.Faults.Sources
import StyleCheck.Proofs.Scan.Alike
import StyleCheck.Proofs.Scan.Lookahead
import StyleCheck.Proofs.Scan.Insertion
import StyleCheck.Proofs.Scan.Fields
import StyleCheck.Proofs.Scan.Plain
import StyleCheck.Proofs.Parsing.Spans
import StyleCheck.Proofs.Parsing.Lines
import StyleCheck.Proofs.Parsing.Definitions
import StyleCheck.Proofs.Parsing.Forms
import StyleCheck.Proofs.Parsing.Signatures
import StyleCheck.Proofs.Parsing.Leads
import StyleCheck.Proofs.Parsing.Balance
import StyleCheck.Proofs.Parsing.Equals
import StyleCheck.Proofs.Parsing.Bindings
import StyleCheck.Proofs.Parsing.Renaming
import StyleCheck.Proofs.Parsing.SoftKeywords
import StyleCheck.Proofs.Parsing.Progress
import StyleCheck.Proofs.Parsing.Conditions
import StyleCheck.Proofs.Parsing.Blocks
import StyleCheck.Proofs.Histories
import StyleCheck.Proofs.Runs
import StyleCheck.Proofs.Text.Characters
import StyleCheck.Proofs.Text.Newlines
import StyleCheck.Proofs.SourceText
import StyleCheck.Proofs.LinePatterns
import StyleCheck.Proofs.Tree.Defaults
import StyleCheck.Proofs.Scan.Numbers
import StyleCheck.Proofs.Files
import StyleCheck.Proofs.Inputs
import StyleCheck.Proofs.Parsing.Groups
