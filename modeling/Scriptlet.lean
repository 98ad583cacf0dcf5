import Scriptlet.Command.Execute
import Scriptlet.Command.Usage
import Scriptlet.Duration
import Scriptlet.ErrorList
import Scriptlet.Eval.Basic
import Scriptlet.Eval.Error
import Scriptlet.Eval.Operators
import Scriptlet.Eval.Program
import Scriptlet.Files
import Scriptlet.Main
import Scriptlet.Number.Fraction
import Scriptlet.Number.Integer
import Scriptlet.Number.Shortest
import Scriptlet.Parse.Cursor
import Scriptlet.Parse.Error
import Scriptlet.Parse.Grammar
import Scriptlet.Parse.Outcome
import Scriptlet.Parse.Program
import Scriptlet.Path
import Scriptlet.Problem
import Scriptlet.Proofs.Eval.Arithmetic
import Scriptlet.Proofs.Eval.Blame
import Scriptlet.Proofs.Eval.Braces
import Scriptlet.Proofs.Eval.Branching
import Scriptlet.Proofs.Eval.Cause
import Scriptlet.Proofs.Eval.Interruption
import Scriptlet.Proofs.Eval.Kinds
import Scriptlet.Proofs.Eval.Paired
import Scriptlet.Proofs.Eval.Plain
import Scriptlet.Proofs.Eval.Unwinding
import Scriptlet.Proofs.Number.Sign
import Scriptlet.Proofs.Number.Widening
import Scriptlet.Proofs.Parse.BrokenHeader
import Scriptlet.Proofs.Parse.Budget
import Scriptlet.Proofs.Parse.Buffer
import Scriptlet.Proofs.Parse.Complete
import Scriptlet.Proofs.Parse.ErrorOrder
import Scriptlet.Proofs.Parse.Lockstep
import Scriptlet.Proofs.Parse.Loosened
import Scriptlet.Proofs.Parse.Origin
import Scriptlet.Proofs.Parse.Phrase
import Scriptlet.Proofs.Parse.Placement
import Scriptlet.Proofs.Parse.Recovery
import Scriptlet.Proofs.Parse.Relabel
import Scriptlet.Proofs.Parse.Segment
import Scriptlet.Proofs.Parse.Sound
import Scriptlet.Proofs.Parse.Steps
import Scriptlet.Proofs.Parse.Whole
import Scriptlet.Proofs.Script.Canonical
import Scriptlet.Proofs.Script.Carets
import Scriptlet.Proofs.Script.Diagnostics
import Scriptlet.Proofs.Script.Integers
import Scriptlet.Proofs.Script.Layout
import Scriptlet.Proofs.Script.Printers
import Scriptlet.Proofs.Script.Sequence
import Scriptlet.Proofs.Script.Subtraction
import Scriptlet.Proofs.Shell.OpenEnds
import Scriptlet.Proofs.Source.Lines
import Scriptlet.Proofs.Source.Rows
import Scriptlet.Proofs.Text.Utf8
import Scriptlet.Proofs.Token.Calls
import Scriptlet.Proofs.Token.Isolated
import Scriptlet.Proofs.Token.Lexeme
import Scriptlet.Proofs.Token.Lexing
import Scriptlet.Proofs.Token.Minus
import Scriptlet.Proofs.Token.Munch
import Scriptlet.Proofs.Token.ReadBack
import Scriptlet.Proofs.Token.Runs
import Scriptlet.Proofs.Token.Shift
import Scriptlet.Proofs.Token.Tiling
import Scriptlet.Proofs.Tree.Folding
import Scriptlet.Proofs.Tree.Legible
import Scriptlet.Proofs.Tree.Outline
import Scriptlet.Proofs.Tree.Placement
import Scriptlet.Proofs.Tree.ReadBack
import Scriptlet.Proofs.Tree.Relabel
import Scriptlet.Proofs.Tree.Unambiguous
import Scriptlet.Proofs.Tree.Whole
import Scriptlet.Proofs.Value.Equality
import Scriptlet.Script
import Scriptlet.Settings.Basic
import Scriptlet.Settings.Load
import Scriptlet.Settings.Toml
import Scriptlet.Settings.Yaml
import Scriptlet.Settings.Yaml.Document
import Scriptlet.Settings.Yaml.Place
import Scriptlet.Settings.Yaml.Scalar
import Scriptlet.Settings.Yaml.Token
import Scriptlet.Shell.Basic
import Scriptlet.Shell.Session
import Scriptlet.Source.File
import Scriptlet.Source.Lines
import Scriptlet.Source.Position
import Scriptlet.Text.Basic
import Scriptlet.Text.Blank
import Scriptlet.Text.Colour
import Scriptlet.Text.Escape
import Scriptlet.Text.Printable
import Scriptlet.Text.Quoted
import Scriptlet.Text.Utf8
import Scriptlet.Token.Basic
import Scriptlet.Token.Kind
import Scriptlet.Token.Lexeme
import Scriptlet.Token.Scanner
import Scriptlet.Tree.Basic
import Scriptlet.Tree.Canonical
import Scriptlet.Tree.Complete
import Scriptlet.Tree.Outline
import Scriptlet.Tree.Span
import Scriptlet.Value.Basic
