import PipeLang.Vocabulary.Keyword
import PipeLang.Vocabulary.Operator
import PipeLang.Vocabulary.Punctuation
import PipeLang.Source.Span
import PipeLang.Text.Uppercase
import PipeLang.Text.Blank
import PipeLang.Text.Escape
import PipeLang.Text.Lines
import PipeLang.Number.Shortest
import PipeLang.Number.Reader
import PipeLang.Token.Identifier
import PipeLang.Diagnostic.Basic
import PipeLang.Scan.Lex
import PipeLang.Tree.Preorder
import PipeLang.Tree.Dump
import PipeLang.Tree.Keys
import PipeLang.Tree.Resolve
import PipeLang.Parse.Options
import PipeLang.Parse.Cursor
import PipeLang.Parse.Fragment
import PipeLang.Format.Source
import PipeLang.Report.Bundle
import PipeLang.Proofs.Number.ReadBack
import PipeLang.Proofs.Tree.Relocate
import PipeLang.Proofs.Scan.Formed
import PipeLang.Proofs.Parse.FormedProgram
import PipeLang.Proofs.Format.ReadProgram
import PipeLang.Proofs.Tree.Nodes
import PipeLang.Proofs.Scan.Reads
import PipeLang.Proofs.Scan.Burrow
import PipeLang.Proofs.Format.RoundTrip
import PipeLang.Proofs.Parse.MovesExpr
import PipeLang.Proofs.Parse.Adjacency
import PipeLang.Proofs.Format.Idempotent
import PipeLang.Proofs.Parse.Modes
import PipeLang.Proofs.Scan.SkippedLine
import PipeLang.Proofs.Parse.DepthProgram
import PipeLang.Proofs.Scan.Regular
import PipeLang.Proofs.Scan.Lossless
import PipeLang.Proofs.Parse.Layouts
import PipeLang.Proofs.Scan.Appended
import PipeLang.Proofs.Parse.WellFormed
import PipeLang.Proofs.Parse.Contents
import PipeLang.Proofs.Parse.Spans
import PipeLang.Proofs.Parse.Precedence
import PipeLang.Proofs.Parse.BlockClauses
import PipeLang.Proofs.Dump.Program
import PipeLang.Proofs.Tree.Rewired
import PipeLang.Proofs.Tree.Repeated
import PipeLang.Proofs.Scan.Blocks
import PipeLang.Proofs.Parse.ListTexts
import PipeLang.Proofs.Format.Interpolated
import PipeLang.Proofs.Format.Lines
import PipeLang.Proofs.Format.Difference
import PipeLang.Proofs.Scan.Frames
import PipeLang.Proofs.Parse.Levels
import PipeLang.Proofs.Report.Bundle
import PipeLang.Proofs.Parse.Progress
import PipeLang.Proofs.Parse.Appended
