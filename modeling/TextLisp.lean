import TextLisp.Main
import TextLisp.Proofs.Text.Balance
import TextLisp.Proofs.Text.Expression
import TextLisp.Tree.Evaluator
import TextLisp.Proofs.Store.History
import TextLisp.Proofs.Evaluator.Operations
import TextLisp.Proofs.Evaluator.Recorded
import TextLisp.Proofs.Evaluator.Assignment
import TextLisp.Proofs.Store.Causes
import TextLisp.Proofs.Store.Listing
import TextLisp.Proofs.Evaluator.Nested
import TextLisp.Proofs.Evaluator.Causes
import TextLisp.Proofs.Evaluator.DepthLimit
import TextLisp.Proofs.Value.Within
import TextLisp.Proofs.Store.Within
import TextLisp.Proofs.Evaluator.Discipline
import TextLisp.Proofs.Evaluator.ReaderFault
import TextLisp.Proofs.Store.Alike
import TextLisp.Proofs.Evaluator.Alike
import TextLisp.Proofs.Tree.Parse
import TextLisp.Proofs.Tree.Simulation
import TextLisp.Proofs.Session.GlobalNames
import TextLisp.Proofs.Evaluator.Coupling
import TextLisp.Proofs.Evaluator.Matching
import TextLisp.Proofs.Evaluator.Confinement
import TextLisp.Proofs.Text.Atoms
import TextLisp.Text.Grammar
import TextLisp.Proofs.Text.Tokens
import TextLisp.Proofs.Text.Grammar
import TextLisp.Proofs.Evaluator.Repeatable
import TextLisp.Proofs.Value.Written
import TextLisp.Proofs.Store.Slotwise
import TextLisp.Proofs.Evaluator.Repeats
import TextLisp.Proofs.Evaluator.Unmentioned
import TextLisp.Proofs.Text.Level
import TextLisp.Proofs.Text.Layout
import TextLisp.Proofs.Store.Holding
import TextLisp.Proofs.Session.Numerals
import TextLisp.Proofs.Evaluator.Aliases
import TextLisp.Proofs.Session.Aliases
import TextLisp.Arithmetic
import TextLisp.Proofs.Evaluator.Arithmetic
import TextLisp.Proofs.Evaluator.Refusals
import TextLisp.Proofs.Evaluator.Invariant
import TextLisp.Proofs.Text.Line
import TextLisp.Proofs.Value.Line
import TextLisp.Proofs.Evaluator.Line
import TextLisp.Proofs.Shell.Turns
import TextLisp.Proofs.Shell.Lines
import TextLisp.Proofs.Shell.Output
import TextLisp.Proofs.Shell.Agreement
import TextLisp.Proofs.Store.Sharing
import TextLisp.Proofs.Store.AliasPath
import TextLisp.Proofs.Store.Reading
import TextLisp.Proofs.Store.Scope
import TextLisp.Proofs.Evaluator.Counts
import TextLisp.Proofs.Evaluator.Calls
import TextLisp.Proofs.Text.Longest
import TextLisp.Proofs.Text.Numeral
import TextLisp.Proofs.Value.Equality
import TextLisp.Proofs.Evaluator.Arguments
import TextLisp.Proofs.Store.Splice
import TextLisp.Proofs.Evaluator.CallTree
import TextLisp.Proofs.Evaluator.CutOff
import TextLisp.Proofs.Shell.Columns
import TextLisp.Proofs.Shell.Listing
import TextLisp.Proofs.Number.Exact
import TextLisp.Proofs.Number.Integer
